import Mathlib.Data.Nat.Notation
set_option autoImplicit false

/-!
Search of a range of positions by halving, for a test that holds from some
position on. A test may fail, and the search with it.
-/

namespace Search

def lower (test : ℕ → Option Bool) (lo hi : ℕ) : Option ℕ :=
  if lo < hi then
    (test (lo+(hi-lo)/2)).bind fun hit =>
      if hit then lower test lo (lo+(hi-lo)/2) else lower test (lo+(hi-lo)/2+1) hi
  else some lo
termination_by hi-lo

theorem lower_eq {test : ℕ → Option Bool} {lo hi e : ℕ} (hlo : lo ≤ e) (hhi : e ≤ hi)
    (hbelow : ∀ i, lo ≤ i → i < e → test i = some false)
    (habove : ∀ i, e ≤ i → i < hi → test i = some true) : lower test lo hi = some e := by
  rw [lower]
  split
  · rename_i hlt
    by_cases hmid : lo+(hi-lo)/2 < e
    · have htest := hbelow _ (Nat.le_add_right lo ((hi-lo)/2)) hmid
      rw [htest,Option.bind_some,if_neg (by decide)]
      exact lower_eq hmid hhi (fun i h1 h2 => hbelow i (by omega) h2) habove
    · have htest := habove (lo+(hi-lo)/2) (by omega) (by omega)
      rw [htest,Option.bind_some,if_pos rfl]
      exact lower_eq hlo (by omega) hbelow (fun i h1 h2 => habove i h1 (by omega))
  · obtain rfl : lo = e := by omega
    rfl
termination_by hi-lo

end Search
