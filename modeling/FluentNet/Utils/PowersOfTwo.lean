import FluentNet.Utils.Algorithms
set_option autoImplicit false

namespace FluentNet
open PowersOfTwo

theorem sshiftRight_and_one {v : BitVec 32} {i : Nat} (hi : i < 32) :
    v.sshiftRight i &&& 1 ≠ 0 ↔ v.toNat.testBit i = true := by
  have hbit : (v.sshiftRight i).getLsbD 0 = v.toNat.testBit i := by
    rw [BitVec.getLsbD_sshiftRight,Nat.add_zero,if_pos hi,BitVec.testBit_toNat]
    rfl
  rw [show (1 : BitVec 32) = 1#32 from rfl,BitVec.and_one_eq_setWidth_ofBool_getLsbD,hbit]
  cases v.toNat.testBit i with
  | false => decide
  | true => decide

theorem highestBitLoop_eq (v : BitVec 32) {n : Nat} (hn : n ≤ 32) :
    highestBitLoop v n = Nat.log 2 (v.toNat % 2^n) := by
  induction n with
  | zero => rw [highestBitLoop,Nat.pow_zero,Nat.mod_one,Nat.log_zero_right,Int.natCast_zero]
  | succ i ih =>
    have hbit : v.sshiftRight i &&& 1 ≠ 0 ↔ v.toNat.testBit i = true :=
      sshiftRight_and_one hn
    rw [highestBitLoop,log_mod_two_pow_succ,ih (by omega)]
    by_cases h : v.toNat.testBit i = true
    · rw [if_pos (hbit.mpr h),if_pos h]
    · rw [if_neg (mt hbit.mp h),if_neg h]

theorem highestBitPosition_eq (v : BitVec 32) :
    highestBitPosition v = Nat.log 2 v.toNat := by
  rw [highestBitPosition,highestBitLoop_eq v (Nat.le_refl 32),Nat.mod_eq_of_lt v.isLt]

theorem isPowerOfTwo_iff {v : BitVec 32} (h0 : v.toNat ≠ 0) :
    isPowerOfTwo v = true ↔ v.toNat.isPowerOfTwo := by
  rw [isPowerOfTwo,beq_iff_eq,lowbit,eq_comm]
  exact and_neg_eq_self_iff h0

theorem ceilOfPowerOfTwo_eq {v : BitVec 32} (h0 : v.toNat ≠ 0) :
    ceilOfPowerOfTwo v = Nat.clog 2 v.toNat := by
  rw [ceilOfPowerOfTwo,highestBitPosition_eq]
  by_cases h : v.toNat.isPowerOfTwo
  · rw [if_pos ((isPowerOfTwo_iff h0).mpr h),clog_of_isPowerOfTwo h]
  · rw [if_neg (mt (isPowerOfTwo_iff h0).mp h),clog_of_not_isPowerOfTwo h0 h]
    rfl

/-- `highestBitPosition` is the exponent below `v` already, and what is no power of two
loses one more. -/
theorem floorOfPowerOfTwo_eq {v : BitVec 32} (h0 : v.toNat ≠ 0) :
    floorOfPowerOfTwo v =
      if v.toNat.isPowerOfTwo then (Nat.log 2 v.toNat : Int) else Nat.log 2 v.toNat-1 := by
  rw [floorOfPowerOfTwo,highestBitPosition_eq]
  exact if_congr (isPowerOfTwo_iff h0) rfl rfl

/-- Still the floor is no more than one too low. -/
theorem floorOfPowerOfTwo_bounds {v : BitVec 32} (h0 : v.toNat ≠ 0) :
    ∃ e : Nat, floorOfPowerOfTwo v = e ∧ 2^e ≤ v.toNat ∧ v.toNat < 2^(e+2) := by
  have hlo : 2^Nat.log 2 v.toNat ≤ v.toNat := Nat.pow_log_le_self 2 h0
  have hhi : v.toNat < 2^(Nat.log 2 v.toNat+1) := Nat.lt_pow_succ_log_self (by decide) _
  rw [floorOfPowerOfTwo_eq h0]
  split
  · rw [Nat.pow_succ] at hhi
    refine ⟨_,rfl,hlo,?_⟩
    rw [Nat.pow_add]
    omega
  · rename_i hpow
    have hne : v.toNat ≠ 1 := fun he => hpow ⟨0,he⟩
    obtain ⟨e,he⟩ : ∃ e, Nat.log 2 v.toNat = e+1 :=
      Nat.exists_eq_succ_of_ne_zero (Nat.log_pos (by decide) (by omega)).ne'
    rw [he] at hlo hhi ⊢
    rw [Nat.pow_succ] at hlo
    exact ⟨e,by omega,by omega,hhi⟩

def RoundAgrees (v : BitVec 32) : Prop :=
  IsLeast {p : Int | (∃ k : Nat, p = 2^k) ∧ v.toInt ≤ p} (roundToPowerOfTwo v).toInt ∧
    ∃ e : Nat, ceilOfPowerOfTwo v = e ∧ (roundToPowerOfTwo v).toInt = 2^e

def FloorAgrees (v : BitVec 32) : Prop :=
  ∃ e : Nat, floorOfPowerOfTwo v = e ∧ 2^e ≤ v.toInt ∧ v.toInt < 2^(e+1)

def HelpersAgree (v : BitVec 32) : Prop := RoundAgrees v ∧ FloorAgrees v

section Positive
variable {v : BitVec 32} (h1 : 1 ≤ v.toInt)
include h1

theorem toInt_eq_toNat : v.toInt = v.toNat := by
  apply BitVec.toInt_eq_toNat_of_msb
  rw [BitVec.msb_eq_toInt,decide_eq_false_iff_not]
  omega

theorem toNat_ne_zero : v.toNat ≠ 0 := by
  have hv := toInt_eq_toNat h1
  omega

theorem isPowerOfTwo_toNat : v.toNat.isPowerOfTwo ↔ ∃ k : Nat, v.toInt = 2^k := by
  rw [toInt_eq_toNat h1]
  exact exists_congr (fun k => by norm_cast)

theorem roundAgrees (h : v.toInt ≤ 2^30) : RoundAgrees v := by
  have hv := toInt_eq_toNat h1
  have hround := roundToPowerOfTwo_eq (toNat_ne_zero h1) (by omega)
  have hleast := isLeast_clog v.toNat
  refine ⟨⟨⟨⟨_,hround⟩,?_⟩,?_⟩,_,ceilOfPowerOfTwo_eq (toNat_ne_zero h1),hround⟩
  · rw [hv,hround]
    exact_mod_cast hleast.1.2
  · rintro p ⟨⟨k,rfl⟩,hp⟩
    rw [hv] at hp
    rw [hround]
    exact_mod_cast hleast.2 ⟨⟨k,rfl⟩,by exact_mod_cast hp⟩

theorem floorAgrees_iff : FloorAgrees v ↔ floorOfPowerOfTwo v = Nat.log 2 v.toNat := by
  have hv := toInt_eq_toNat h1
  constructor
  · rintro ⟨e,he,hlo,hhi⟩
    rw [hv] at hlo hhi
    rw [he,Nat.log_eq_of_pow_le_of_lt_pow (by exact_mod_cast hlo) (by exact_mod_cast hhi)]
  · intro hfloor
    refine ⟨_,hfloor,?_,?_⟩
    · rw [hv]
      exact_mod_cast Nat.pow_log_le_self 2 (toNat_ne_zero h1)
    · rw [hv]
      exact_mod_cast Nat.lt_pow_succ_log_self (by decide) v.toNat

end Positive

/-- The helpers agree at the powers of two and nowhere else: it is the floor that fails. -/
theorem helpersAgree_iff {v : BitVec 32} (h1 : 1 ≤ v.toInt) (h : v.toInt ≤ 2^30) :
    RoundAgrees v ∧ (HelpersAgree v ↔ ∃ k : Nat, v.toInt = 2^k) := by
  have hround := roundAgrees h1 h
  refine ⟨hround,?_⟩
  rw [HelpersAgree,and_iff_right hround,floorAgrees_iff h1,
    floorOfPowerOfTwo_eq (toNat_ne_zero h1),← isPowerOfTwo_toNat h1]
  split
  · rename_i hpow
    exact iff_of_true rfl hpow
  · rename_i hpow
    exact iff_of_false (by omega) hpow

theorem helpersAgree_eight_twelve :
    HelpersAgree 8#32 ∧ RoundAgrees 12#32 ∧ ¬HelpersAgree 12#32 := by
  have h8 := helpersAgree_iff (v := 8#32) (by decide) (by decide)
  have h12 := helpersAgree_iff (v := 12#32) (by decide) (by decide)
  have hpow : ¬∃ k : Nat, (12#32).toInt = 2^k :=
    (isPowerOfTwo_toNat (v := 12#32) (by decide)).not.mp (by decide)
  exact ⟨h8.2.mpr ⟨3,rfl⟩,h12.1,h12.2.not.mpr hpow⟩

theorem helpersAgree_three :
    ¬∀ v : BitVec 32, 1 ≤ v.toInt → v.toInt ≤ 2^30 → HelpersAgree v := by
  intro h
  obtain ⟨_,e,he,_,hhi⟩ := h 3#32 (by decide) (by decide)
  have hfloor : floorOfPowerOfTwo 3#32 = 0 := by decide
  obtain rfl : e = 0 := by omega
  revert hhi
  decide

end FluentNet
