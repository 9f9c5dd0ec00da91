import Mathlib.Algebra.Group.Nat.Defs
import Mathlib.Data.Nat.Log
import Mathlib.Data.Nat.Size
import Mathlib.Order.Bounds.Basic
set_option autoImplicit false

/-!
Powers of two around a number: the exponents below and above it, the test for a
power by the lowest set bit, and the masks one below a power.
-/

namespace PowersOfTwo

theorem isLeast_clog (n : ℕ) : IsLeast {p | p.isPowerOfTwo ∧ n ≤ p} (2^Nat.clog 2 n) := by
  constructor
  · exact ⟨⟨_,rfl⟩,Nat.le_pow_clog (by decide) n⟩
  · rintro p ⟨⟨k,rfl⟩,hp⟩
    exact Nat.pow_le_pow_right (by decide) ((Nat.clog_le_iff_le_pow (by decide)).mpr hp)

theorem clog_of_isPowerOfTwo {n : ℕ} (h : n.isPowerOfTwo) : Nat.clog 2 n = Nat.log 2 n := by
  obtain ⟨k,rfl⟩ := h
  rw [Nat.clog_pow _ _ (by decide),Nat.log_pow (by decide)]

theorem clog_of_not_isPowerOfTwo {n : ℕ} (h0 : n ≠ 0) (h : ¬n.isPowerOfTwo) :
    Nat.clog 2 n = Nat.log 2 n+1 := by
  have hle : 2^Nat.log 2 n ≤ n := Nat.pow_log_le_self 2 h0
  have hne : n ≠ 2^Nat.log 2 n := fun he => h ⟨_,he⟩
  apply Nat.le_antisymm
  · rw [Nat.clog_le_iff_le_pow (by decide)]
    exact Nat.le_of_lt (Nat.lt_pow_succ_log_self (by decide) n)
  · exact (Nat.lt_clog_iff_pow_lt (by decide)).mpr (by omega)

theorem size_pred {n : ℕ} (h0 : n ≠ 0) : (n-1).size = Nat.clog 2 n := by
  refine eq_of_forall_ge_iff (fun k => ?_)
  rw [Nat.size_le,Nat.clog_le_iff_le_pow (by decide)]
  omega

theorem log_mod_two_pow_succ (n k : ℕ) :
    Nat.log 2 (n % 2^(k+1)) = if n.testBit k then k else Nat.log 2 (n % 2^k) := by
  rw [Nat.mod_pow_succ,← Nat.toNat_testBit]
  have hlt : n % 2^k < 2^k := Nat.mod_lt _ (Nat.two_pow_pos k)
  cases n.testBit k with
  | false => rfl
  | true =>
    rw [if_pos rfl,Bool.toNat_true,Nat.mul_one]
    refine Nat.log_eq_of_pow_le_of_lt_pow (Nat.le_add_left _ _) ?_
    rw [Nat.pow_succ]
    omega

theorem and_not_eq_self_iff {w : ℕ} {u v : BitVec w} : v &&& ~~~u = v ↔ v &&& u = 0 := by
  constructor
  · intro h
    rw [← h,BitVec.and_assoc,BitVec.and_comm (~~~u),BitVec.and_not_self]
    exact BitVec.and_zero
  · intro h
    refine BitVec.eq_of_getLsbD_eq (fun i hi => ?_)
    have hbit : (v &&& u).getLsbD i = false := by rw [h]; exact BitVec.getLsbD_zero
    rw [BitVec.getLsbD_and] at hbit
    rw [BitVec.getLsbD_and,BitVec.getLsbD_not,decide_eq_true hi,Bool.true_and]
    cases hv : v.getLsbD i with
    | false => rfl
    | true =>
      rw [hv,Bool.true_and] at hbit
      rw [hbit]
      rfl

theorem toNat_sub_one {w : ℕ} {v : BitVec w} (h0 : v.toNat ≠ 0) : (v-1#w).toNat = v.toNat-1 := by
  have hpos : 1 ≤ v.toNat := Nat.one_le_iff_ne_zero.mpr h0
  have hone : (1#w).toNat = 1 := by
    rw [BitVec.toNat_ofNat]
    exact Nat.mod_eq_of_lt (Nat.lt_of_le_of_lt hpos v.isLt)
  rw [BitVec.toNat_sub_of_le (by rw [BitVec.le_def,hone]; exact hpos),hone]

theorem and_neg_eq_self_iff {w : ℕ} {v : BitVec w} (h0 : v.toNat ≠ 0) :
    v &&& -v = v ↔ v.toNat.isPowerOfTwo := by
  have hneg : -v = ~~~(v-1#w) := by
    rw [BitVec.neg_eq_not_add,BitVec.not_sub_one_eq_not_add_one]
  rw [hneg,and_not_eq_self_iff,BitVec.toNat_eq,BitVec.toNat_and,toNat_sub_one h0]
  exact Nat.and_sub_one_eq_zero_iff_isPowerOfTwo h0

theorem getLsbD_mask {w k : ℕ} {m : BitVec w} (hm : m.toNat = 2^k-1) (i : ℕ) :
    m.getLsbD i = decide (i < k) := by
  rw [← BitVec.testBit_toNat,hm,Nat.testBit_two_pow_sub_one]

end PowersOfTwo
