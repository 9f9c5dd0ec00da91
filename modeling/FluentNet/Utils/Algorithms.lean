import FluentNet.Library.PowersOfTwo
import Mathlib.Algebra.Group.Int.Defs
import Mathlib.Algebra.Group.Nat.Defs
import Mathlib.Data.Nat.Size
set_option autoImplicit false

namespace FluentNet

/-- `v |= v >> k` on an `int`; the shift is arithmetic. -/
def smear (k : Nat) (v : BitVec 32) : BitVec 32 := v ||| v.sshiftRight k

def roundToPowerOfTwo (v : BitVec 32) : BitVec 32 :=
  smear 16 (smear 8 (smear 4 (smear 2 (smear 1 (v-1)))))+1

def lowbit (v : BitVec 32) : BitVec 32 := v &&& -v

def isPowerOfTwo (v : BitVec 32) : Bool := v == lowbit v

/-- The loop of `highestBitPosition`, entered with `i = n-1`; `~i` ends it at -1. -/
def highestBitLoop (v : BitVec 32) : Nat → Int
  | 0 => 0
  | i+1 => if v.sshiftRight i &&& 1 ≠ 0 then i else highestBitLoop v i

def highestBitPosition (v : BitVec 32) : Int := highestBitLoop v 32

def ceilOfPowerOfTwo (v : BitVec 32) : Int :=
  let n := highestBitPosition v
  if isPowerOfTwo v then n else n+1

def floorOfPowerOfTwo (v : BitVec 32) : Int :=
  let n := highestBitPosition v
  if isPowerOfTwo v then n else n-1

def Smeared (m : Nat) (u v : BitVec 32) : Prop :=
  ∀ i < 32, v.getLsbD i = true ↔ ∃ j, i ≤ j ∧ j < i+m ∧ u.getLsbD j = true

theorem Smeared.refl (u : BitVec 32) : Smeared 1 u u := by
  intro i _
  constructor
  · exact fun h => ⟨i,Nat.le_refl _,Nat.lt_succ_self _,h⟩
  · rintro ⟨j,h1,h2,h⟩
    obtain rfl : j = i := by omega
    exact h

/-- A smear doubles the reach; where the shift runs out of bits it repeats the sign,
which is within reach already. -/
theorem Smeared.smear {m k : Nat} {u v : BitVec 32} (h : Smeared m u v) (hk : k ≤ m) :
    Smeared (m+k) u (smear k v) := by
  intro i hi
  have hshift : (v.sshiftRight k).getLsbD i = v.getLsbD (min (k+i) 31) := by
    rw [BitVec.getLsbD_sshiftRight,decide_eq_false (by omega : ¬32 ≤ i),Bool.not_false,Bool.true_and]
    split
    · rw [Nat.min_eq_left (by omega)]
    · rw [Nat.min_eq_right (by omega),BitVec.msb_eq_getLsbD_last]
  rw [FluentNet.smear,BitVec.getLsbD_or,Bool.or_eq_true,hshift,h i hi,h _ (by omega)]
  have hbound : ∀ j, u.getLsbD j = true → j < 32 := fun j hj => BitVec.lt_of_getLsbD hj
  constructor
  · rintro (⟨j,h1,h2,hj⟩ | ⟨j,h1,h2,hj⟩)
    · exact ⟨j,h1,by omega,hj⟩
    · have hlt := hbound j hj
      exact ⟨j,by omega,by omega,hj⟩
  · rintro ⟨j,h1,h2,hj⟩
    have hlt := hbound j hj
    by_cases hjm : j < i+m
    · exact .inl ⟨j,h1,hjm,hj⟩
    · exact .inr ⟨j,by omega,by omega,hj⟩

/-- For every `int` the result is the power of two above `v-1`, cut to 32 bits. -/
theorem roundToPowerOfTwo_toNat (v : BitVec 32) :
    (roundToPowerOfTwo v).toNat = 2^(v-1).toNat.size % 2^32 := by
  have hfill := ((((Smeared.refl (v-1)).smear (k := 1) (by omega)).smear (k := 2) (by omega)).smear
    (k := 4) (by omega)).smear (k := 8) (by omega) |>.smear (k := 16) (by omega)
  have hsize : (v-1).toNat.size ≤ 32 := Nat.size_le.mpr (v-1).isLt
  -- all the bits up to the highest one are set
  have hones : (smear 16 (smear 8 (smear 4 (smear 2 (smear 1 (v-1)))))).toNat =
      2^(v-1).toNat.size-1 := by
    refine Nat.eq_of_testBit_eq (fun i => ?_)
    rw [Nat.testBit_two_pow_sub_one,BitVec.testBit_toNat,Bool.eq_iff_iff,decide_eq_true_iff]
    by_cases hi : i < 32
    · rw [hfill i hi,Nat.lt_size]
      constructor
      · rintro ⟨j,hij,_,hj⟩
        exact Nat.le_trans (Nat.pow_le_pow_right (by decide) hij) (Nat.ge_two_pow_of_testBit hj)
      · intro hle
        obtain ⟨j,hij,hj⟩ := Nat.exists_ge_and_testBit_of_ge_two_pow hle
        have hlt : j < 32 := BitVec.lt_of_getLsbD hj
        exact ⟨j,hij,by omega,hj⟩
    · rw [BitVec.getLsbD_of_ge _ _ (by omega)]
      simp only [Bool.false_eq_true,false_iff]
      omega
  have hpos : 0 < 2^(v-1).toNat.size := Nat.two_pow_pos _
  have hone : (1 : BitVec 32).toNat = 1 := rfl
  rw [roundToPowerOfTwo,BitVec.toNat_add,hones,hone]
  congr 1
  omega

theorem roundToPowerOfTwo_eq {v : BitVec 32} (h0 : v.toNat ≠ 0) (h : v.toNat ≤ 2^30) :
    (roundToPowerOfTwo v).toInt = 2^Nat.clog 2 v.toNat := by
  have hpred : (v-1).toNat = v.toNat-1 := PowersOfTwo.toNat_sub_one h0
  have hpow : 2^Nat.clog 2 v.toNat ≤ 2^30 :=
    Nat.pow_le_pow_right (by decide) ((Nat.clog_le_iff_le_pow (by decide)).mpr h)
  have hround := roundToPowerOfTwo_toNat v
  rw [hpred,PowersOfTwo.size_pred h0,Nat.mod_eq_of_lt (by omega)] at hround
  rw [BitVec.toInt_eq_toNat_of_lt (by omega),hround]
  exact Int.natCast_pow 2 _

theorem roundToPowerOfTwo_bounds {n : Nat} (h1 : 1 ≤ n) (h : n ≤ 2^30) :
    (n : Int) ≤ (roundToPowerOfTwo (BitVec.ofInt 32 n)).toInt ∧
      (roundToPowerOfTwo (BitVec.ofInt 32 n)).toInt ≤ 2^30 := by
  have hn : (BitVec.ofInt 32 n).toNat = n := by
    rw [BitVec.ofInt_natCast,BitVec.toNat_ofNat,Nat.mod_eq_of_lt (by omega)]
  have hlow : n ≤ 2^Nat.clog 2 n := Nat.le_pow_clog (by decide) n
  have hhigh : 2^Nat.clog 2 n ≤ 2^30 :=
    Nat.pow_le_pow_right (by decide) ((Nat.clog_le_iff_le_pow (by decide)).mpr h)
  rw [roundToPowerOfTwo_eq (by omega) (by omega),hn]
  exact ⟨by exact_mod_cast hlow,by exact_mod_cast hhigh⟩

/-- No `int` is rounded to more than 2^30: beyond that the sign bit is reached, or nothing
is left. -/
theorem roundToPowerOfTwo_le (v : BitVec 32) : (roundToPowerOfTwo v).toInt ≤ 2^30 := by
  have hn := roundToPowerOfTwo_toNat v
  have hsize : (v-1).toNat.size ≤ 32 := Nat.size_le.mpr (v-1).isLt
  rw [BitVec.toInt_eq_toNat_cond]
  by_cases h : (v-1).toNat.size ≤ 30
  · have hle : 2^(v-1).toNat.size ≤ 2^30 := Nat.pow_le_pow_right (by decide) h
    rw [Nat.mod_eq_of_lt (by omega)] at hn
    split <;> omega
  · have hcases : (v-1).toNat.size = 31 ∨ (v-1).toNat.size = 32 := by omega
    rcases hcases with h | h <;> rw [h] at hn <;> split <;> omega

end FluentNet
