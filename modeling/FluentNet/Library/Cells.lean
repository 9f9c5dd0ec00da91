import Mathlib.Logic.Function.Basic
set_option autoImplicit false

/-!
Memory that is read a stretch at a time.
-/

namespace Cells
variable {α : Type}

def slice (f : Nat → α) (i n : Nat) : List α := (List.range n).map (fun k => f (i+k))

variable {f g : Nat → α} {i m n : Nat}

theorem slice_length : (slice f i n).length = n := by simp [slice]

theorem slice_zero : slice f i 0 = [] := rfl

theorem slice_congr (h : ∀ k < n, f (i+k) = g (i+k)) : slice f i n = slice g i n :=
  List.map_congr_left (fun k hk => h k (List.mem_range.mp hk))

theorem slice_add : slice f i (m+n) = slice f i m ++ slice f (i+m) n := by
  simp [slice,List.range_add,Nat.add_assoc]

theorem slice_update {j : Nat} {a : α} (h : j < i ∨ i+n ≤ j) : slice (Function.update f j a) i n = slice f i n := by
  refine slice_congr (fun k hk => Function.update_of_ne ?_ _ _)
  omega

theorem slice_split {k : Nat} (h : k ≤ n) : slice f i n = slice f i k ++ slice f (i+k) (n-k) := by
  rw [← slice_add,Nat.add_sub_of_le h]

theorem slice_eq {text : List α} (h : ∀ k (hk : k < text.length), f (i+k) = text[k]) :
    slice f i text.length = text := by
  refine List.ext_getElem slice_length (fun k hk hk' => ?_)
  rw [← h k hk']
  simp [slice]

def fill (f : Nat → α) (i : Nat) (text : List α) : Nat → α :=
  fun j => if i ≤ j then text[j-i]?.getD (f j) else f j

theorem fill_at {text : List α} {k : Nat} (hk : k < text.length) : fill f i text (i+k) = text[k] := by
  rw [fill,if_pos (Nat.le_add_right i k),Nat.add_sub_cancel_left,List.getElem?_eq_getElem hk,Option.getD_some]

theorem fill_other {text : List α} {j : Nat} (h : j < i ∨ i+text.length ≤ j) : fill f i text j = f j := by
  unfold fill
  split
  · rw [List.getElem?_eq_none (by omega),Option.getD_none]
  · rfl

theorem slice_fill {text : List α} : slice (fill f i text) i text.length = text :=
  slice_eq (fun _ hk => fill_at hk)

end Cells
