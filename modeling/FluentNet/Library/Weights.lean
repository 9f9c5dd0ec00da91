import Mathlib.Data.List.Basic
set_option autoImplicit false

/-!
Agents in a list, each with a weight, or with things in its hands; what one of them
changes by another state of its own.
-/

namespace Weights

variable {α β : Type} {w : α → Nat} {l : List α} {a b : α} {i : Nat}

def weigh (w : α → Nat) : List α → Nat
  | [] => 0
  | a :: l => w a+weigh w l

theorem weigh_set (h : l[i]? = some a) (b : α) : weigh w (l.set i b)+w a = weigh w l+w b := by
  induction l generalizing i with
  | nil => simp at h
  | cons c l ih =>
    cases i with
    | zero =>
      have hca : c = a := by simpa using h
      subst hca
      simp only [List.set_cons_zero,weigh]
      omega
    | succ i =>
      have hnext := ih (i := i) (by simpa using h)
      simp only [List.set_cons_succ,weigh]
      omega

theorem weigh_mem (h : a ∈ l) : w a ≤ weigh w l := by
  induction l with
  | nil => cases h
  | cons c l ih =>
    rw [weigh]
    rcases List.mem_cons.mp h with rfl | h
    · exact Nat.le_add_right _ _
    · exact Nat.le_trans (ih h) (Nat.le_add_left _ _)

theorem weigh_pos (h : 0 < weigh w l) : ∃ (i : Nat) (a : α), l[i]? = some a ∧ 0 < w a := by
  induction l with
  | nil => cases h
  | cons c l ih =>
    rw [weigh] at h
    by_cases hc : 0 < w c
    · exact ⟨0,c,rfl,hc⟩
    · obtain ⟨i,a,ha,hw⟩ := ih (by omega)
      exact ⟨i+1,a,by simpa using ha,hw⟩

theorem weigh_map (f : α → α) (hf : ∀ a, w (f a) = w a) : weigh w (l.map f) = weigh w l := by
  induction l with
  | nil => rfl
  | cons c l ih => simp only [List.map_cons,weigh,hf,ih]

theorem weigh_zero (h : ∀ a ∈ l, w a = 0) : weigh w l = 0 := by
  induction l with
  | nil => rfl
  | cons c l ih =>
    rw [weigh,h c List.mem_cons_self,ih (fun a ha => h a (List.mem_cons_of_mem _ ha))]

theorem held_set (f : α → List β) (h : l[i]? = some a) (b : α) :
    ((l.set i b).flatMap f ++ f a).Perm (l.flatMap f ++ f b) := by
  induction l generalizing i with
  | nil => simp at h
  | cons c l ih =>
    cases i with
    | zero =>
      have hca : c = a := by simpa using h
      subst hca
      simp only [List.set_cons_zero,List.flatMap_cons,List.append_assoc (f c)]
      exact List.perm_append_comm.trans (List.perm_append_comm.append_left _)
    | succ i =>
      have hnext := ih (i := i) (by simpa using h)
      simp only [List.set_cons_succ,List.flatMap_cons,List.append_assoc]
      exact hnext.append_left _

end Weights
