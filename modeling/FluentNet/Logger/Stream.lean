import FluentNet.Library.Cells
import FluentNet.Utils.StringUtils
set_option autoImplicit false

/-!
How the logger spells a whole number: by a loop at run time, or by a table that the
compiler has filled.
-/

namespace FluentNet
namespace Logger
open Cells

def spelling (val : Int) : List UInt8 :=
  if val < 0 then 45 :: decimal val.natAbs else decimal val.natAbs

namespace Stream

/-- `-val`, of a signed type of `w` bits; undefined for the least one. -/
def negate (w : Nat) (val : Int) : Option Int := if val = -(2^(w-1)) then none else some (-val)

def parseLengthNat (val : Nat) : Nat :=
  if val = 0 then 1
  else if val ≥ 1 ∧ val ≤ 9 then 1
  else if val ≥ 10 ∧ val ≤ 99 then 2
  else if val ≥ 100 ∧ val ≤ 999 then 3
  else if val ≥ 1000 ∧ val ≤ 9999 then 4
  else if val ≥ 10000 ∧ val ≤ 99999 then 5
  else if val ≥ 100000 ∧ val ≤ 999999 then 6
  else if val ≥ 1000000 ∧ val ≤ 9999999 then 7
  else if val ≥ 10000000 ∧ val ≤ 99999999 then 8
  else if val ≥ 100000000 ∧ val ≤ 999999999 then 9
  else if val ≥ 1000000000 ∧ val ≤ 9999999999 then 10
  else 10+parseLengthNat (val/10000000000)
termination_by val
decreasing_by omega

def parseLength (w : Nat) (val : Int) : Option Nat :=
  if val ≥ 0 then some (parseLengthNat val.natAbs)
  else (negate w val).map (fun v => 1+parseLengthNat v.natAbs)

/-- The loop of `parse`: `buf[cur--]` gets the last digit of `msg`. Nothing where it
writes in front of the buffer. -/
def parseLoop (base : Nat) (cur : Int) (msg : Nat) (buf : Nat → UInt8) : Option (Nat → UInt8) :=
  if msg = 0 then some buf
  else if cur < 0 then none
  else parseLoop base (cur-1) (msg/10) (Function.update buf (base+cur.toNat) (digit (msg%10)))
termination_by msg
decreasing_by omega

def parse (w base : Nat) (msg : Int) (length : Nat) (buf : Nat → UInt8) : Option (Nat → UInt8) :=
  let cur : Int := length-1
  if msg < 0 then
    (negate w msg).bind (fun msg => parseLoop base cur msg.natAbs (Function.update buf base 45))
  else if msg = 0 then some (Function.update buf base 48)
  else parseLoop base cur msg.natAbs buf

section Lengths

theorem decimal_length_pow {n k : Nat} (h : 10^k ≤ n) : (decimal n).length = k+(decimal (n/10^k)).length := by
  induction k generalizing n with
  | zero => simp
  | succ k ih =>
    have hpos : 1 ≤ 10^k := Nat.one_le_pow k 10 (by decide)
    rw [Nat.pow_succ] at h
    have hten : 10 ≤ n := by omega
    have hle : 10^k ≤ n/10 := (Nat.le_div_iff_mul_le (by decide)).mpr h
    rw [decimal_of_le hten,List.length_append,ih hle,List.length_singleton,Nat.div_div_eq_div_mul,
      Nat.pow_succ,Nat.mul_comm (10^k) 10]
    omega

theorem decimal_length_eq {n : Nat} (k : Nat) (h : 10^k ≤ n) (hlt : n/10^k < 10) : (decimal n).length = k+1 := by
  rw [decimal_length_pow h,decimal_of_lt hlt,List.length_singleton]

theorem parseLengthNat_eq (val : Nat) : parseLengthNat val = (decimal val).length := by
  induction val using Nat.strongRecOn with
  | ind val ih =>
    have hdigits : ∀ k, 10^k ≤ val ∧ val < 10*10^k → (decimal val).length = k+1 :=
      fun k ⟨hle,hlt⟩ => decimal_length_eq k hle ((Nat.div_lt_iff_lt_mul (by omega)).mpr hlt)
    rw [parseLengthNat]
    split
    · rename_i h
      subst h
      rfl
    split
    · exact (hdigits 0 (by omega)).symm
    split
    · exact (hdigits 1 (by omega)).symm
    split
    · exact (hdigits 2 (by omega)).symm
    split
    · exact (hdigits 3 (by omega)).symm
    split
    · exact (hdigits 4 (by omega)).symm
    split
    · exact (hdigits 5 (by omega)).symm
    split
    · exact (hdigits 6 (by omega)).symm
    split
    · exact (hdigits 7 (by omega)).symm
    split
    · exact (hdigits 8 (by omega)).symm
    split
    · exact (hdigits 9 (by omega)).symm
    · have hpow : (10 : Nat)^10 = 10000000000 := by decide
      rw [ih _ (by omega),decimal_length_pow (n := val) (k := 10) (by omega),hpow]

end Lengths

section Texts
variable {w : Nat}

theorem parseLoop_digits (base off : Nat) {msg : Nat} (hmsg : msg ≠ 0) (buf : Nat → UInt8) {cur : Int}
    (hcur : cur+1 = off+(decimal msg).length) :
    ∃ out, parseLoop base cur msg buf = some out ∧ slice out (base+off) (decimal msg).length = decimal msg ∧
      ∀ i, i < base+off ∨ base+off+(decimal msg).length ≤ i → out i = buf i := by
  induction msg using Nat.strongRecOn generalizing cur buf with
  | ind msg ih =>
    have hpos : 0 < (decimal msg).length := List.length_pos_iff.mpr (decimal_ne_nil msg)
    rw [parseLoop,if_neg hmsg,if_neg (by omega)]
    by_cases hlt : msg < 10
    · have hone : decimal msg = [digit msg] := decimal_of_lt hlt
      have hlen : (decimal msg).length = 1 := by rw [hone]; rfl
      have hcur0 : cur.toNat = off := by omega
      have hzero : msg/10 = 0 := by omega
      refine ⟨Function.update buf (base+cur.toNat) (digit (msg%10)),?_,?_,fun i hi => ?_⟩
      · rw [hzero,parseLoop,if_pos rfl]
      · rw [hone,hcur0,Nat.mod_eq_of_lt hlt]
        simp [slice]
      · exact Function.update_of_ne (by omega) _ _
    · have happend := decimal_of_le (n := msg) (by omega)
      have hlen : (decimal msg).length = (decimal (msg/10)).length+1 := by rw [happend]; simp
      have hnat : cur.toNat = off+(decimal (msg/10)).length := by omega
      obtain ⟨out,hout,hslice,hother⟩ := ih (msg/10) (by omega) (by omega)
        (Function.update buf (base+cur.toNat) (digit (msg%10))) (show cur-1+1 = _ by omega)
      refine ⟨out,hout,?_,fun i hi => ?_⟩
      · have hlast : out (base+off+(decimal (msg/10)).length) = digit (msg%10) := by
          rw [hother _ (.inr (Nat.le_refl _)),hnat,← Nat.add_assoc]
          exact Function.update_self _ _ _
        rw [hlen,slice_add,hslice,happend]
        simp [slice,hlast]
      · rw [hother i (by omega)]
        exact Function.update_of_ne (by omega) _ _

/-- A number that its type can negate is spelt as it should be, in a place that is
neither too long nor too short for it. -/
theorem parse_spelling (base : Nat) {msg : Int} (hmsg : -(2^(w-1)) < msg) (buf : Nat → UInt8) :
    parseLength w msg = some (spelling msg).length ∧
    ∃ out, parse w base msg (spelling msg).length buf = some out ∧
      slice out base (spelling msg).length = spelling msg ∧
      ∀ i, i < base ∨ base+(spelling msg).length ≤ i → out i = buf i := by
  by_cases hneg : msg < 0
  · have hspell : spelling msg = 45 :: decimal msg.natAbs := if_pos hneg
    have hnegate : negate w msg = some (-msg) := if_neg (by omega)
    have habs : (-msg).natAbs = msg.natAbs := Int.natAbs_neg msg
    obtain ⟨out,hout,hslice,hother⟩ := parseLoop_digits base 1 (Int.natAbs_ne_zero.mpr (by omega))
      (Function.update buf base 45)
      (show ((spelling msg).length : Int)-1+1 = (1 : Nat)+(decimal msg.natAbs).length by
        rw [hspell,List.length_cons]; omega)
    refine ⟨?_,out,?_,?_,fun i hi => ?_⟩
    · rw [parseLength,if_neg (by omega),hnegate,Option.map_some,parseLengthNat_eq,habs,hspell,List.length_cons,
        Nat.add_comm]
    · simp only [parse,if_pos hneg,hnegate,Option.bind_some,habs]
      exact hout
    · have hfirst : out base = 45 := by
        rw [hother base (.inl (by omega))]
        exact Function.update_self _ _ _
      rw [hspell,List.length_cons,Nat.add_comm,slice_add,hslice]
      simp [slice,hfirst]
    · rw [hspell,List.length_cons] at hi
      rw [hother i (by omega)]
      exact Function.update_of_ne (by have := List.length_pos_iff.mpr (decimal_ne_nil msg.natAbs); omega) _ _
  · have hspell : spelling msg = decimal msg.natAbs := if_neg hneg
    have hlength : parseLength w msg = some (spelling msg).length := by
      rw [parseLength,if_pos (by omega),parseLengthNat_eq,hspell]
    by_cases hzero : msg = 0
    · subst hzero
      refine ⟨hlength,Function.update buf base 48,by simp [parse],?_,fun i hi => Function.update_of_ne ?_ _ _⟩
      · have hzero : spelling 0 = [48] := by decide
        rw [hzero]
        simp [slice]
      · have hlen : (spelling 0).length = 1 := by decide
        omega
    · obtain ⟨out,hout,hslice,hother⟩ := parseLoop_digits base 0 (Int.natAbs_ne_zero.mpr hzero) buf
        (show ((spelling msg).length : Int)-1+1 = (0 : Nat)+(decimal msg.natAbs).length by rw [hspell]; omega)
      refine ⟨hlength,out,?_,?_,fun i hi => hother i (by rw [hspell] at hi; omega)⟩
      · simp only [parse,if_neg hneg,if_neg hzero]
        exact hout
      · rw [hspell]
        exact hslice

end Texts

end Stream

namespace Meta

def lengthNat (I : Nat) : Nat := if I < 10 then 1 else 1+lengthNat (I/10)
termination_by I
decreasing_by omega

def length (I : Int) : Nat := if I < 0 then 1+lengthNat I.natAbs else lengthNat I.natAbs

/-- `NumericMetaStringBuilder<N, I, Chars...>::type`; there is none for `N = 0`. -/
def numericMetaStringBuilder : Nat → Int → List UInt8 → Option (List UInt8)
  | 0, _, _ => none
  | 1, I, chars => some (UInt8.ofInt (48+I) :: chars)
  | 2, I, chars => some ((if I < 0 then 45 else UInt8.ofInt (48+I.tdiv 10)) :: digit (I.natAbs%10) :: chars)
  | N+3, I, chars => numericMetaStringBuilder (N+2) (I.tdiv 10) (digit (I.natAbs%10) :: chars)

def numericMetaString (I : Int) : Option (List UInt8) := numericMetaStringBuilder (length I) I [0]

theorem lengthNat_eq (n : Nat) : lengthNat n = (decimal n).length := by
  induction n using Nat.strongRecOn with
  | ind n ih =>
    rw [lengthNat]
    split
    · rename_i h
      rw [decimal_of_lt h,List.length_singleton]
    · rw [ih _ (by omega),decimal_of_le (n := n) (by omega),List.length_append,List.length_singleton,Nat.add_comm]

theorem length_eq (I : Int) : length I = (spelling I).length := by
  unfold length spelling
  split
  · rw [lengthNat_eq,List.length_cons,Nat.add_comm]
  · rw [lengthNat_eq]

theorem ofInt_digit {n : Nat} : UInt8.ofInt (48+(n : Int)) = digit n := by
  have hmod : ((48+(n : Int))%2^8).toNat = (48+n)%2^8 := by omega
  rw [digit,UInt8.ofInt,hmod]
  exact UInt8.toNat.inj (by simp)

theorem builder_decimal (n : Nat) (chars : List UInt8) :
    numericMetaStringBuilder (decimal n).length n chars = some (decimal n ++ chars) := by
  induction n using Nat.strongRecOn generalizing chars with
  | ind n ih =>
    by_cases hlt : n < 10
    · rw [decimal_of_lt hlt]
      simp only [List.length_singleton,numericMetaStringBuilder,ofInt_digit,List.singleton_append]
    · have happend := decimal_of_le (n := n) (by omega)
      have hdiv : (n : Int).tdiv 10 = ((n/10 : Nat) : Int) := by
        rw [Int.ofNat_tdiv]
        rfl
      by_cases hlt' : n/10 < 10
      · rw [happend,decimal_of_lt hlt']
        simp only [List.length_append,List.length_singleton,numericMetaStringBuilder,hdiv,ofInt_digit]
        rw [if_neg (by omega)]
        rfl
      · obtain ⟨k,hk⟩ : ∃ k, (decimal (n/10)).length = k+2 := by
          rw [decimal_of_le (by omega),List.length_append,List.length_singleton]
          have hpos := List.length_pos_iff.mpr (decimal_ne_nil (n/10/10))
          exact ⟨_,(Nat.sub_add_cancel (by omega)).symm⟩
        have hstep := ih (n/10) (by omega) (digit (n%10) :: chars)
        rw [happend,List.length_append,List.length_singleton,hk]
        rw [hk] at hstep
        simp only [numericMetaStringBuilder,hdiv,Int.natAbs_natCast,hstep]
        simp

theorem builder_negative {n : Nat} (hn : 0 < n) (chars : List UInt8) :
    numericMetaStringBuilder ((decimal n).length+1) (-n) chars = some (45 :: decimal n ++ chars) := by
  induction n using Nat.strongRecOn generalizing chars with
  | ind n ih =>
    by_cases hlt : n < 10
    · rw [decimal_of_lt hlt]
      simp only [List.length_singleton,numericMetaStringBuilder,Int.natAbs_neg,Int.natAbs_natCast,
        Nat.mod_eq_of_lt hlt]
      rw [if_pos (by omega)]
      rfl
    · have happend := decimal_of_le (n := n) (by omega)
      have hdiv : (-(n : Int)).tdiv 10 = -((n/10 : Nat) : Int) := by
        rw [Int.neg_tdiv,Int.ofNat_tdiv]
        rfl
      obtain ⟨k,hk⟩ : ∃ k, (decimal (n/10)).length = k+1 := by
        have hpos := List.length_pos_iff.mpr (decimal_ne_nil (n/10))
        exact ⟨_,(Nat.sub_add_cancel hpos).symm⟩
      have hstep := ih (n/10) (by omega) (by omega) (digit (n%10) :: chars)
      rw [happend,List.length_append,List.length_singleton,hk]
      rw [hk] at hstep
      simp only [numericMetaStringBuilder,hdiv,Int.natAbs_neg,Int.natAbs_natCast,hstep]
      simp

theorem numericMetaString_spelling (I : Int) : numericMetaString I = some (spelling I ++ [0]) := by
  rw [numericMetaString,length_eq]
  by_cases hneg : I < 0
  · have hspell : spelling I = 45 :: decimal I.natAbs := if_pos hneg
    have habs : I = -(I.natAbs : Int) := by omega
    have hbuild := builder_negative (n := I.natAbs) (by omega) [0]
    rw [← habs] at hbuild
    rw [hspell,List.length_cons,hbuild]
  · have hspell : spelling I = decimal I.natAbs := if_neg hneg
    have habs : I = (I.natAbs : Int) := by omega
    have hbuild := builder_decimal I.natAbs [0]
    rw [← habs] at hbuild
    rw [hspell,hbuild]

end Meta

end Logger
end FluentNet
