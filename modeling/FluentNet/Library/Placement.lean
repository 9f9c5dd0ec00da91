import Mathlib.Logic.Function.Basic
set_option autoImplicit false

/-!
Things that are each in one place at most. Places are emptied, or filled with
something that is nowhere yet.
-/

namespace Placement
variable {π κ : Type}

def Placed (holds : π → Option κ) : Prop :=
  ∀ p q k, holds p = some k → holds q = some k → p = q

variable {holds : π → Option κ}

theorem Placed.apart (h : Placed holds) {p q : π} (hpq : p ≠ q) {j k : κ} (hj : holds p = some j)
    (hk : holds q = some k) : j ≠ k := by
  rintro rfl
  exact hpq (h p q j hj hk)

variable [DecidableEq π]

theorem Placed.clear (h : Placed holds) (p : π) : Placed (Function.update holds p none) := by
  have hsame : ∀ q k, Function.update holds p none q = some k → holds q = some k := by
    intro q k hk
    by_cases hq : q = p
    · subst hq
      simp at hk
    · rwa [Function.update_of_ne hq] at hk
  exact fun a b k ha hb => h a b k (hsame a k ha) (hsame b k hb)

theorem Placed.fill (h : Placed holds) {p : π} {k : κ} (hnew : ∀ q, holds q ≠ some k) :
    Placed (Function.update holds p (some k)) := by
  have hcases : ∀ q j, Function.update holds p (some k) q = some j →
      (q = p ∧ j = k) ∨ holds q = some j := by
    intro q j hj
    by_cases hq : q = p
    · subst hq
      rw [Function.update_self] at hj
      cases hj
      exact .inl ⟨rfl,rfl⟩
    · exact .inr (by rwa [Function.update_of_ne hq] at hj)
  intro a b j ha hb
  rcases hcases a j ha with ⟨hap,haj⟩ | ha' <;> rcases hcases b j hb with ⟨hbp,hbj⟩ | hb'
  · rw [hap,hbp]
  · exact absurd hb' (haj ▸ hnew b)
  · exact absurd ha' (hbj ▸ hnew a)
  · exact h a b j ha' hb'

end Placement
