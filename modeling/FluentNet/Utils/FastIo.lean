import FluentNet.Library.PowersOfTwo
import FluentNet.Library.Runs
import FluentNet.Library.Search
import Mathlib.Data.UInt
set_option autoImplicit false

namespace FluentNet

structure IoResult where
  buf : Option Nat
  len : UInt64
  deriving DecidableEq

namespace FastIo

@[irreducible] def M (N : UInt64) : UInt64 := ((N+3) >>> 2 <<< 3)+8

end FastIo

/-- `FastIo<N>`; `_buf` has `M` bytes. -/
structure FastIo (N : UInt64) where
  _buf : Fin (FastIo.M N).toNat → UInt8
  cur : Nat

namespace FastIo

variable {N : UInt64}

def init : FastIo N := ⟨fun _ => 0,0⟩

def read (s : FastIo N) (i : Int) : Option UInt8 :=
  if h : 0 ≤ i ∧ i.toNat < (M N).toNat then some (s._buf ⟨i.toNat,h.2⟩) else none

def load (s : FastIo N) : Nat → Nat → Option (BitVec 64)
  | 0, _ => some 0
  | n+1, i => do
    let c ← s.read i
    let high ← s.load n (i+1)
    some (high <<< 8 ||| c.toBitVec.setWidth 64)

def clear (s : FastIo N) : FastIo N :=
  ⟨fun i => if i.val < s.cur then 0 else s._buf i,0⟩

def strlen (s : FastIo N) : Option Nat :=
  Search.lower (fun mid => (s.read mid).map (· == 0)) s.cur (M N-1).toNat

def strlen2Loop (s : FastIo N) : Nat → Int → Option Nat
  | 0, _ => some (M N-1).toNat
  | n+1, i => do
    let c ← s.read i
    if c = 0 then some i.toNat else s.strlen2Loop n (i+1)

/-- The bytes from `lo` to `lo+8`; `i` and `j` are `int`s. -/
def rescan (s : FastIo N) (lo : Nat) : Option Nat :=
  let i := (BitVec.ofNat 32 lo).toInt
  let j := (BitVec.ofNat 32 (lo+8)).toInt
  s.strlen2Loop (j-i+1).toNat i

def strlen2 (s : FastIo N) : Option Nat := do
  let lo ← Search.lower
    (fun mid => (s.load 8 (mid <<< 3)).map (fun chars => chars &&& 0xff == 0))
    (s.cur >>> 3) ((M N-1) >>> 3).toNat
  s.rescan ((if lo ≠ 0 then lo-1 else lo) <<< 3)

def put (s : FastIo N) (input : List UInt8) : FastIo N :=
  ⟨fun i => if i.val < s.cur then s._buf i
    else if i.val ≤ s.cur+input.length then input.getD (i.val-s.cur) 0 else s._buf i,s.cur⟩

def room (s : FastIo N) : Int := Int.bmod ((M N).toNat-s.cur) (2^64)

/-- `std::istream::getline` when a line is there; one that does not fit with its NUL fails
the stream, and what fits of it is stored. -/
def store (s : FastIo N) (input : List UInt8) : Bool × FastIo N :=
  if (input.length : Int) < s.room then (true,s.put input)
  else if 0 < s.room then (false,s.put (input.take (s.room-1).toNat))
  else (false,s)

def cleared (s : FastIo N) : FastIo N := if s.cur > N.toNat then s.clear else s

def getline (s : FastIo N) (input : List UInt8) : Option (IoResult × FastIo N) :=
  match s.cleared.store input with
  | (false,t) => some (⟨none,0⟩,t)
  | (true,t) => do
    let bound ← t.strlen2
    some (⟨some t.cur,UInt64.ofNat bound-UInt64.ofNat t.cur⟩,{ t with cur := bound })

def filled (s : FastIo N) (input : List UInt8) : Option (FastIo N) :=
  if (s.cleared.store input).1 then some (s.cleared.store input).2 else none

def step (s : FastIo N) (input : List UInt8) : Option (FastIo N) :=
  (s.getline input).bind (fun r => if r.1.buf.isSome then some r.2 else none)

def NulFree (_ : FastIo N) (input : List UInt8) : Prop := 0 ∉ input

theorem M_toNat (N : UInt64) : (M N).toNat = ((N+3).toNat/4*8 % 2^64+8) % 2^64 := by
  rw [M,UInt64.toNat_add,UInt64.toNat_shiftLeft,UInt64.toNat_shiftRight,Nat.shiftLeft_eq,
    Nat.shiftRight_eq_div_pow]
  rfl

theorem M_mod (N : UInt64) : (M N).toNat % 8 = 0 := by
  rw [M_toNat]
  omega

theorem last_toNat (hM : 0 < (M N).toNat) : (M N-1).toNat = (M N).toNat-1 :=
  UInt64.toNat_sub_of_le _ _ (UInt64.le_iff_toNat_le.mpr hM)

theorem last_block (hM : 0 < (M N).toNat) :
    ((M N-1) >>> 3).toNat = ((M N).toNat-1)/8 := by
  rw [UInt64.toNat_shiftRight,last_toNat hM,Nat.shiftRight_eq_div_pow]
  rfl

theorem read_nat (s : FastIo N) {i : Nat} (h : i < (M N).toNat) :
    s.read i = some (s._buf ⟨i,h⟩) :=
  dif_pos ⟨Int.natCast_nonneg i,h⟩

theorem load_isSome (s : FastIo N) {n i : Nat} (h : i+n ≤ (M N).toNat) : (s.load n i).isSome := by
  induction n generalizing i with
  | zero => rfl
  | succ n ih =>
    obtain ⟨high,hhigh⟩ := Option.isSome_iff_exists.mp (ih (i := i+1) (by omega))
    simp [load,read_nat s (show i < (M N).toNat by omega),hhigh]

theorem low_byte (high : BitVec 64) (c : UInt8) :
    (high <<< 8 ||| c.toBitVec.setWidth 64) &&& 0xff = c.toBitVec.setWidth 64 := by
  refine BitVec.eq_of_getLsbD_eq (fun i hi => ?_)
  have hmask : (0xff : BitVec 64).getLsbD i = decide (i < 8) := PowersOfTwo.getLsbD_mask rfl i
  rw [BitVec.getLsbD_and,hmask,BitVec.getLsbD_or,BitVec.getLsbD_shiftLeft]
  by_cases h8 : i < 8
  · simp [h8]
  · simp [h8,BitVec.getLsbD_setWidth,BitVec.getLsbD_of_ge c.toBitVec i (by omega)]

theorem low_byte_zero (high : BitVec 64) (c : UInt8) :
    ((high <<< 8 ||| c.toBitVec.setWidth 64) &&& 0xff == 0) = (c == 0) := by
  rw [low_byte,Bool.eq_iff_iff,beq_iff_eq,beq_iff_eq]
  constructor
  · intro h
    have hnat := congrArg BitVec.toNat h
    have hlt := c.toNat_lt
    rw [BitVec.toNat_setWidth,UInt8.toNat_toBitVec,Nat.mod_eq_of_lt (by omega)] at hnat
    exact UInt8.toNat_inj.mp hnat
  · rintro rfl
    rfl

theorem load_low (s : FastIo N) {i : Nat} (h : i+8 ≤ (M N).toNat) :
    (s.load 8 i).map (fun chars => chars &&& 0xff == 0) =
      some (s._buf ⟨i,by omega⟩ == 0) := by
  obtain ⟨high,hhigh⟩ := Option.isSome_iff_exists.mp (s.load_isSome (n := 7) (i := i+1) (by omega))
  rw [load,read_nat s (by omega),Option.bind_eq_bind,Option.bind_some,hhigh]
  simp only [Option.bind_eq_bind,Option.bind_some,Option.map_some,Option.some.injEq]
  exact low_byte_zero high _

structure Filled (t : FastIo N) (e : Nat) : Prop where
  le : t.cur ≤ e
  lt : e < (M N).toNat
  text : ∀ i : Fin (M N).toNat, i.val < e → t._buf i ≠ 0
  tail : ∀ i : Fin (M N).toNat, e ≤ i.val → t._buf i = 0

section Lengths

variable {t : FastIo N} {e : Nat}

theorem Filled.strlen (h : Filled t e) : t.strlen = some e := by
  have hlt := h.lt
  rw [FastIo.strlen,last_toNat (by omega)]
  refine Search.lower_eq h.le (by omega) (fun i h1 h2 => ?_) (fun i h1 h2 => ?_)
  · rw [t.read_nat (by omega),Option.map_some,beq_eq_false_iff_ne.mpr (h.text ⟨i,by omega⟩ h2)]
  · rw [t.read_nat (by omega),Option.map_some,h.tail ⟨i,by omega⟩ h1]
    rfl

/-- The block search ends at the first block that begins at the end of the line or behind
it; the last block is taken unseen. -/
theorem Filled.block (h : Filled t e) :
    Search.lower (fun mid => (t.load 8 (mid <<< 3)).map (fun chars => chars &&& 0xff == 0))
      (t.cur >>> 3) ((M N-1) >>> 3).toNat = some (min ((e+7)/8) ((M N).toNat/8-1)) := by
  have hle := h.le
  have hlt := h.lt
  have hmod := M_mod N
  have hlast : ((M N).toNat-1)/8 = (M N).toNat/8-1 := by omega
  have hcur : t.cur >>> 3 = t.cur/8 := Nat.shiftRight_eq_div_pow t.cur 3
  have htest : ∀ (mid : Nat) (hm : mid < (M N).toNat/8-1),
      (t.load 8 (mid <<< 3)).map (fun chars => chars &&& 0xff == 0) =
        some (t._buf ⟨mid*8,by omega⟩ == 0) := by
    intro mid hm
    rw [Nat.shiftLeft_eq]
    exact t.load_low (by omega)
  rw [last_block (by omega),hlast,hcur]
  refine Search.lower_eq (by omega) (by omega) (fun mid h1 h2 => ?_) (fun mid h1 h2 => ?_)
  · rw [htest mid (by omega),
      beq_eq_false_iff_ne.mpr (h.text ⟨mid*8,by omega⟩ (by simp only; omega))]
  · rw [htest mid h2,h.tail ⟨mid*8,by omega⟩ (by simp only; omega)]
    rfl

theorem loop_hit {n lo : Nat} (hlo : lo ≤ e) (hn : e < lo+n) (he : e < (M N).toNat)
    (hbelow : ∀ i : Fin (M N).toNat, lo ≤ i.val → i.val < e → t._buf i ≠ 0)
    (hat : t._buf ⟨e,he⟩ = 0) : t.strlen2Loop n lo = some e := by
  induction n generalizing lo with
  | zero => omega
  | succ n ih =>
    rw [strlen2Loop,t.read_nat (by omega),Option.bind_eq_bind,Option.bind_some]
    by_cases heq : lo = e
    · subst heq
      rw [if_pos hat]
      rfl
    · rw [if_neg (hbelow ⟨lo,by omega⟩ (Nat.le_refl lo) (by simp only; omega))]
      exact @ih (lo+1) (by omega) (by omega) (fun i h1 h2 => hbelow i (by omega) h2)

theorem loop_miss {n lo : Nat} (hn : lo+n ≤ (M N).toNat)
    (hall : ∀ i : Fin (M N).toNat, lo ≤ i.val → i.val < lo+n → t._buf i ≠ 0) :
    t.strlen2Loop n lo = some (M N-1).toNat := by
  induction n generalizing lo with
  | zero => rfl
  | succ n ih =>
    rw [strlen2Loop,t.read_nat (by omega),Option.bind_eq_bind,Option.bind_some,
      if_neg (hall ⟨lo,by omega⟩ (Nat.le_refl lo) (by simp only; omega))]
    exact @ih (lo+1) (by omega) (fun i h1 h2 => hall i (by omega) (by omega))

theorem loop_outside {n : Nat} {i : Int} (hi : i < 0) : t.strlen2Loop (n+1) i = none := by
  have hread : t.read i = none := dif_neg (fun h => by omega)
  rw [strlen2Loop,hread]
  rfl

theorem int_ofNat (n : Nat) : (BitVec.ofNat 32 n).toInt =
    if n % 2^32 < 2^31 then ((n % 2^32 : Nat) : Int) else (n % 2^32 : Nat)-2^32 := by
  rw [BitVec.toInt_eq_toNat_cond,BitVec.toNat_ofNat]
  split <;> split <;> omega

theorem rescan_inside {lo : Nat} (hlo : lo % 2^32+8 < 2^31) :
    t.rescan lo = t.strlen2Loop 9 (lo % 2^32 : Nat) := by
  rw [rescan]
  simp only [int_ofNat]
  rw [if_pos (show (lo+8) % 2^32 < 2^31 by omega),if_pos (show lo % 2^32 < 2^31 by omega)]
  congr 1
  omega

theorem rescan_empty {lo : Nat} (hlo : lo % 2^32+8 = 2^31) :
    t.rescan lo = some (M N-1).toNat := by
  rw [rescan]
  simp only [int_ofNat]
  rw [if_neg (show ¬(lo+8) % 2^32 < 2^31 by omega),if_pos (show lo % 2^32 < 2^31 by omega)]
  have hcount : (((lo+8) % 2^32 : Nat) : Int)-2^32-(lo % 2^32 : Nat)+1 ≤ 0 := by omega
  rw [Int.toNat_of_nonpos hcount,strlen2Loop]

theorem rescan_outside {lo : Nat} (hmod : lo % 8 = 0) (hlo : 2^31 ≤ lo % 2^32) :
    t.rescan lo = none := by
  rw [rescan]
  simp only [int_ofNat]
  rw [if_neg (show ¬lo % 2^32 < 2^31 by omega)]
  split
  · have hcount : ((((lo+8) % 2^32 : Nat) : Int)-((lo % 2^32 : Nat)-2^32)+1).toNat = 8+1 := by omega
    rw [hcount]
    exact loop_outside (by omega)
  · have hcount : ((((lo+8) % 2^32 : Nat) : Int)-2^32-((lo % 2^32 : Nat)-2^32)+1).toNat = 8+1 := by
      omega
    rw [hcount]
    exact loop_outside (by omega)

theorem Filled.rescan_hit (h : Filled t e) {lo : Nat} (hlo : lo ≤ e) (hhi : e ≤ lo+8)
    (hint : lo+8 < 2^31) : t.rescan lo = some e := by
  have hlow : lo % 2^32 = lo := Nat.mod_eq_of_lt (by omega)
  rw [rescan_inside (by omega),hlow]
  exact loop_hit hlo (by omega) h.lt (fun i _ h2 => h.text i h2) (h.tail _ (Nat.le_refl e))

theorem Filled.rescan_miss (h : Filled t e) (lo : Nat) (hmod : lo % 8 = 0)
    (hM : lo+16 ≤ (M N).toNat) (hlo : lo % 2^32+8 < 2^31 → lo % 2^32+8 < e) :
    t.rescan lo = if lo % 2^32 < 2^31 then some (M N-1).toNat else none := by
  have hle : lo % 2^32 ≤ lo := Nat.mod_le lo (2^32)
  by_cases hin : lo % 2^32+8 < 2^31
  · have hend := hlo hin
    rw [rescan_inside hin,if_pos (by omega)]
    exact loop_miss (by omega) (fun i _ h2 => h.text i (by omega))
  · split
    · exact rescan_empty (by omega)
    · exact rescan_outside hmod (by omega)

/-- The end of a line is found when the rescan meets it, or when it is the position that
is returned without being met. -/
def Fits (N : UInt64) (e : Nat) : Prop :=
  (M N).toNat = 8 ∨ e+8 ≤ (M N).toNat ∧ e+8 ≤ 2^31 ∨
    e+1 = (M N).toNat ∧ ((M N).toNat-16) % 2^32 < 2^31

theorem Filled.strlen2_eq (h : Filled t e) : t.strlen2 =
    t.rescan ((min ((e+7)/8) ((M N).toNat/8-1)-1)*8) := by
  rw [strlen2,h.block,Option.bind_eq_bind,Option.bind_some,Nat.shiftLeft_eq]
  congr 2
  split <;> omega

/-- What is returned where no NUL is met. -/
def Overrun (t : FastIo N) (e : Nat) : Prop :=
  t.strlen2 = none ∨ t.strlen2 = some ((M N).toNat-1) ∧ e ≠ (M N).toNat-1

theorem Filled.strlen2_met (h : Filled t e) (hlast : (M N).toNat = 8 ∨ e+8 ≤ (M N).toNat)
    (hint : e+8 ≤ 2^31) : t.strlen2 = some e := by
  have hlt := h.lt
  have hmod := M_mod N
  rw [h.strlen2_eq]
  refine h.rescan_hit (by omega) ?_ (by omega)
  rcases hlast with h8 | hlast
  · omega
  · rw [Nat.min_eq_left (by omega)]
    omega

theorem Filled.strlen2_far (h : Filled t e) (hlast : e+8 ≤ (M N).toNat) (hint : 2^31 < e+8) :
    Overrun t e := by
  have hmod := M_mod N
  have hmiss := h.rescan_miss (((e+7)/8-1)*8) (by omega) (by omega) (fun _ => by omega)
  rw [Overrun,h.strlen2_eq,Nat.min_eq_left (by omega),hmiss,last_toNat (by omega)]
  split
  · exact .inr ⟨rfl,by omega⟩
  · exact .inl rfl

theorem Filled.strlen2_last (h : Filled t e) (h8 : (M N).toNat ≠ 8) (hlast : (M N).toNat < e+8) :
    t.strlen2 = if ((M N).toNat-16) % 2^32 < 2^31 then some ((M N).toNat-1) else none := by
  have hlt := h.lt
  have hmod := M_mod N
  have hmiss := h.rescan_miss ((M N).toNat-16) (by omega) (by omega) (fun _ => by omega)
  have hblock : ((M N).toNat/8-1-1)*8 = (M N).toNat-16 := by omega
  rw [h.strlen2_eq,Nat.min_eq_right (by omega),hblock,hmiss,last_toNat (by omega)]

theorem Filled.strlen2_fits (h : Filled t e) (hfits : Fits N e) : t.strlen2 = some e := by
  have hlt := h.lt
  rcases hfits with h8 | ⟨hlast,hint⟩ | ⟨hend,hint⟩
  · exact h.strlen2_met (.inl h8) (by omega)
  · exact h.strlen2_met (.inr hlast) hint
  · by_cases h8 : (M N).toNat = 8
    · exact h.strlen2_met (.inl h8) (by omega)
    · rw [h.strlen2_last h8 (by omega),if_pos hint]
      congr 1
      omega

theorem Filled.strlen2_overruns (h : Filled t e) (hfits : ¬Fits N e) : Overrun t e := by
  have hlt := h.lt
  rw [Fits] at hfits
  by_cases hlast : e+8 ≤ (M N).toNat
  · exact h.strlen2_far hlast (by omega)
  · have heq := h.strlen2_last (by omega) (by omega)
    by_cases hint : ((M N).toNat-16) % 2^32 < 2^31
    · rw [if_pos hint] at heq
      exact .inr ⟨heq,by omega⟩
    · rw [if_neg hint] at heq
      exact .inl heq

end Lengths

def start (s : FastIo N) : Nat := if s.cur > N.toNat then 0 else s.cur

structure Wf (s : FastIo N) : Prop where
  cur_le : s.cur ≤ (M N).toNat-1
  text : ∀ i : Fin (M N).toNat, i.val < s.cur → s._buf i ≠ 0
  tail : ∀ i : Fin (M N).toNat, s.cur ≤ i.val → s._buf i = 0

theorem init_wf : (init : FastIo N).Wf :=
  ⟨Nat.zero_le _,fun _ h => absurd h (Nat.not_lt_zero _),fun _ _ => rfl⟩

theorem Wf.clear {s : FastIo N} (h : s.Wf) : s.clear.Wf where
  cur_le := Nat.zero_le _
  text := fun _ hi => absurd hi (Nat.not_lt_zero _)
  tail := fun i _ => by
    by_cases hi : i.val < s.cur
    · exact if_pos hi
    · exact (if_neg hi).trans (h.tail i (by omega))

theorem room_le {s : FastIo N} (hs : s.Wf) {n : Nat} (h : (n : Int) < s.room) :
    s.cur+n < (M N).toNat := by
  have hcur := hs.cur_le
  have hlt := (M N).toNat_lt
  rw [room,Int.bmod_def] at h
  split at h <;> omega

theorem Wf.put {s : FastIo N} {input : List UInt8} (hs : s.Wf) (hinput : 0 ∉ input)
    (hroom : s.cur+input.length < (M N).toNat) :
    Filled (s.put input) (s.cur+input.length) ∧
      ∀ k < input.length, (s.put input).read (s.cur+k : Nat) = input[k]? := by
  have hat : ∀ k (hk : k < input.length), input.getD k 0 = input[k] := by
    intro k hk
    rw [List.getD_eq_getElem?_getD,List.getElem?_eq_getElem hk,Option.getD_some]
  refine ⟨⟨Nat.le_add_right _ _,hroom,fun i hi => ?_,fun i hi => ?_⟩,fun k hk => ?_⟩
  · by_cases hold : i.val < s.cur
    · simpa only [FastIo.put,if_pos hold] using hs.text i hold
    · simp only [FastIo.put,if_neg hold]
      rw [if_pos (by omega),hat _ (by omega)]
      intro h0
      exact hinput (h0 ▸ List.getElem_mem _)
  · simp only [FastIo.put,if_neg (show ¬i.val < s.cur by omega)]
    split
    · rw [List.getD_eq_getElem?_getD,List.getElem?_eq_none (by omega)]
      rfl
    · exact hs.tail i (by omega)
  · rw [read_nat _ (by omega),List.getElem?_eq_getElem hk]
    simp only [FastIo.put,if_neg (show ¬s.cur+k < s.cur by omega),
      if_pos (show s.cur+k ≤ s.cur+input.length by omega),Nat.add_sub_cancel_left]
    rw [hat k hk]

theorem Wf.cleared {s : FastIo N} (hs : s.Wf) : s.cleared.Wf ∧ s.cleared.cur = s.start := by
  rw [FastIo.cleared,start]
  split
  · exact ⟨hs.clear,rfl⟩
  · exact ⟨hs,rfl⟩

theorem filled_store {s t : FastIo N} {input : List UInt8} (h : s.filled input = some t) :
    s.cleared.store input = (true,t) ∧ (input.length : Int) < s.cleared.room ∧
      t = s.cleared.put input := by
  rw [FastIo.filled,store] at h
  rw [store]
  split at h
  · rename_i hroom
    cases h
    exact ⟨if_pos hroom,hroom,rfl⟩
  · split at h <;> cases h

theorem Wf.filled {s t : FastIo N} {input : List UInt8} (hs : s.Wf) (hinput : 0 ∉ input)
    (h : s.filled input = some t) :
    t.cur = s.start ∧ Filled t (s.start+input.length) ∧
      ∀ k < input.length, t.read (s.start+k : Nat) = input[k]? := by
  obtain ⟨_,hroom,rfl⟩ := filled_store h
  obtain ⟨hwf,hcur⟩ := hs.cleared
  have hput := hwf.put hinput (room_le hwf hroom)
  rw [hcur] at hput
  exact ⟨hcur,hput⟩

structure FirstNul (t : FastIo N) (e : Nat) : Prop where
  le : t.cur ≤ e
  nul : t.read e = some 0
  before : ∀ i : Nat, t.cur ≤ i → i < e → t.read i ≠ some 0

theorem Filled.firstNul {t : FastIo N} {e : Nat} (h : Filled t e) : t.FirstNul e where
  le := h.le
  nul := by rw [t.read_nat h.lt,h.tail _ (Nat.le_refl e)]
  before := fun i _ hi => by
    have hlt := h.lt
    rw [t.read_nat (by omega)]
    exact fun h0 => h.text _ hi (Option.some.inj h0)

def text (s : FastIo N) (r : IoResult) : List (Option UInt8) :=
  (List.range r.len.toNat).map (fun k => r.buf.bind (fun i => s.read (i+k : Nat)))

structure Exact (s t : FastIo N) (input : List UInt8) : Prop where
  same : t.strlen2 = t.strlen
  nul : ∃ e, t.strlen = some e ∧ t.FirstNul e
  returned : ∃ r u, s.getline input = some (r,u) ∧ u.text r = input.map some

/-- A line without NULs for which the two searches agree. -/
def Admits (s : FastIo N) (input : List UInt8) : Prop :=
  0 ∉ input ∧ Fits N (s.start+input.length)

instance (s : FastIo N) (input : List UInt8) : Decidable (s.Admits input) :=
  inferInstanceAs (Decidable (_ ∧ (_ ∨ _ ∧ _ ∨ _ ∧ _)))

theorem Filled.wf {t : FastIo N} {e : Nat} (h : Filled t e) : Wf { t with cur := e } where
  cur_le := Nat.le_sub_one_of_lt h.lt
  text := h.text
  tail := h.tail

theorem Wf.getline {s t : FastIo N} {input : List UInt8} (hs : s.Wf) (hl : s.Admits input)
    (ht : s.filled input = some t) : s.getline input =
      some (⟨some t.cur,UInt64.ofNat (s.start+input.length)-UInt64.ofNat t.cur⟩,
        { t with cur := s.start+input.length }) := by
  obtain ⟨_,hfilled,_⟩ := hs.filled hl.1 ht
  rw [FastIo.getline,(filled_store ht).1]
  simp only [Option.bind_eq_bind]
  rw [hfilled.strlen2_fits hl.2]
  rfl

theorem step_filled {s u : FastIo N} {input : List UInt8} (h : s.step input = some u) :
    ∃ t, s.filled input = some t := by
  obtain ⟨r,hget,hr⟩ := Option.bind_eq_some_iff.mp h
  rw [FastIo.getline] at hget
  split at hget
  · cases hget
    cases hr
  · rename_i t hstore
    exact ⟨t,by rw [FastIo.filled,hstore]; rfl⟩

theorem Wf.step {s u : FastIo N} {input : List UInt8} (hs : s.Wf) (hl : s.Admits input)
    (h : s.step input = some u) : u.Wf := by
  obtain ⟨t,ht⟩ := step_filled h
  rw [FastIo.step,hs.getline hl ht] at h
  cases h
  exact (hs.filled hl.1 ht).2.1.wf

theorem Wf.exact {s t : FastIo N} {input : List UInt8} (hs : s.Wf) (hl : s.Admits input)
    (ht : s.filled input = some t) : Exact s t input := by
  obtain ⟨hcur,hfilled,hbytes⟩ := hs.filled hl.1 ht
  refine ⟨(hfilled.strlen2_fits hl.2).trans hfilled.strlen.symm,⟨_,hfilled.strlen,hfilled.firstNul⟩,
    ⟨_,_,hs.getline hl ht,?_⟩⟩
  have hlt := hfilled.lt
  have hM := (M N).toNat_lt
  have hlen : (UInt64.ofNat (s.start+input.length)-UInt64.ofNat t.cur).toNat = input.length := by
    have hbound := UInt64.toNat_ofNat_of_lt' (show s.start+input.length < 2^64 by omega)
    have hstart := UInt64.toNat_ofNat_of_lt' (show t.cur < 2^64 by omega)
    rw [UInt64.toNat_sub_of_le _ _ (UInt64.le_iff_toNat_le.mpr (by omega)),hbound,hstart]
    omega
  rw [FastIo.text,hlen]
  refine List.ext_getElem? (fun k => ?_)
  rw [List.getElem?_map,List.getElem?_map]
  by_cases hk : k < input.length
  · rw [List.getElem?_range hk,Option.map_some,List.getElem?_eq_getElem hk,Option.map_some]
    have hbyte := hbytes k hk
    rw [List.getElem?_eq_getElem hk,← hcur] at hbyte
    exact congrArg some hbyte
  · rw [List.getElem?_eq_none (by rw [List.length_range]; omega),List.getElem?_eq_none (by omega)]
    rfl

/-- In a run of lines for which the searches have agreed, they agree on the next one, and
it is returned as it was read, just when it is admitted. -/
theorem getline_exact_iff_admits (s : FastIo N) (hrun : Runs.Path step Admits init s)
    (input : List UInt8) (hinput : 0 ∉ input) (t : FastIo N) (ht : s.filled input = some t) :
    Exact s t input ↔ s.Admits input := by
  have hs : s.Wf := hrun.keeps (fun _ _ _ hl hstep hi => hi.step hl hstep) init_wf
  refine ⟨fun h => ⟨hinput,?_⟩,fun hl => hs.exact hl ht⟩
  by_contra hfits
  obtain ⟨_,hfilled,_⟩ := hs.filled hinput ht
  have hsame := h.same
  rw [hfilled.strlen] at hsame
  rcases hfilled.strlen2_overruns hfits with h2 | ⟨h2,hne⟩
  · rw [h2] at hsame
    cases hsame
  · rw [h2] at hsame
    exact hne (Option.some.inj hsame).symm

/-- Two short lines in a buffer of 16 bytes. -/
theorem getline_exact_iff_admits_second : ∃ s t : FastIo 4, s.cur = 2 ∧
    s.filled [99,100,101] = some t ∧ (Exact s t [99,100,101] ↔ s.Admits [99,100,101]) := by
  have hrun : (Runs.run step Admits (init : FastIo 4) [[97,98]]).any
      (fun s => s.cur = 2 ∧ (s.filled [99,100,101]).isSome) := by decide +kernel
  obtain ⟨s,hs,hcond⟩ := (Option.any_eq_true _ _).mp hrun
  obtain ⟨hcur,hfilled⟩ := of_decide_eq_true hcond
  obtain ⟨t,ht⟩ := Option.isSome_iff_exists.mp hfilled
  exact ⟨s,t,hcur,ht,getline_exact_iff_admits s (Runs.run_path hs) _ (by decide) t ht⟩

/-- A line of nine bytes in the 16 bytes of `FastIo<1>` is taken to end at 15. -/
theorem getline_overruns : ¬∀ (N : UInt64) (s : FastIo N), Runs.Path step NulFree init s →
    ∀ (input : List UInt8) (t : FastIo N), 0 ∉ input → s.filled input = some t →
      Exact s t input := by
  intro hall
  have hfilled : ((init : FastIo 1).filled (List.replicate 9 97)).any
      (fun t => t.strlen = some 9 ∧ t.strlen2 = some 15) := by decide +kernel
  obtain ⟨t,ht,hcond⟩ := (Option.any_eq_true _ _).mp hfilled
  obtain ⟨h1,h2⟩ := of_decide_eq_true hcond
  have hsame := (hall 1 init .refl _ t (by decide) ht).same
  rw [h1,h2] at hsame
  cases hsame

end FastIo

end FluentNet
