import Mathlib.Data.List.Infix
set_option autoImplicit false

/-! Lists that come from a list fed back to itself. -/

namespace Streams
variable {α : Type} {front back whole : List α}

def repeated (front : List α) (n : Nat) : List α := (List.replicate n front).flatten

@[simp] theorem repeated_succ (front : List α) (n : Nat) :
    repeated front (n+1) = front ++ repeated front n := rfl

/-- What begins as it goes on behind `front` is `front` over and over. -/
theorem prefix_repeated {n : Nat} (h : back <+: front ++ back) (hn : back.length ≤ n*front.length) :
    back <+: repeated front n := by
  induction n generalizing back with
  | zero =>
    obtain rfl : back = [] := List.eq_nil_of_length_eq_zero (by omega)
    exact List.prefix_rfl
  | succ n ih =>
    rw [Nat.succ_mul] at hn
    rw [repeated_succ]
    by_cases hle : back.length ≤ front.length
    · exact (List.prefix_of_prefix_length_le h (List.prefix_append _ _) hle).trans (List.prefix_append _ _)
    · obtain ⟨rest,rfl⟩ := List.prefix_of_prefix_length_le (List.prefix_append front back) h (by omega)
      rw [List.prefix_append_right_inj] at h ⊢
      rw [List.length_append] at hn
      exact ih h (by omega)

theorem fed_back (hwhole : whole <+: front ++ back) (hback : back <+: whole) (hfront : front ≠ []) :
    ∃ n, whole <+: repeated front n := by
  have hpos : 0 < front.length := List.length_pos_iff.mpr hfront
  have hrep : back <+: repeated front back.length :=
    prefix_repeated (hback.trans hwhole) (Nat.le_mul_of_pos_right _ hpos)
  exact ⟨back.length+1,hwhole.trans ((List.prefix_append_right_inj front).mpr hrep)⟩

end Streams
