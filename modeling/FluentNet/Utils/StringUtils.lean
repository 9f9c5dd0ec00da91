import FluentNet.Library.Tokens
import Mathlib.Algebra.Group.Int.Defs
import Mathlib.Algebra.Group.Nat.Defs
set_option autoImplicit false

namespace FluentNet

/-- `++` on an `int` that is not negative; it overflows at the largest one. -/
def increment (v : Nat) : Option Nat := if v < 2^31-1 then some (v+1) else none

/-- Where the loops of `split` stand. `str` is what its array holds from the pointer on;
the NUL-terminated overload has no `length`. -/
structure Split where
  str : List UInt8
  length : Option Int
  lo : Nat
  hi : Nat
  deriving DecidableEq

def decrement : Option Int → Option (Option Int)
  | none => some none
  | some length => if -2^31 < length then some (some (length-1)) else none

/-- The condition of every loop: `length` in the overload that has one, else `*str`. -/
def more : List UInt8 → Option Int → Option Bool
  | _, some length => some (length != 0)
  | c :: _, none => some (c != 0)
  | [], none => none

/-- An inner loop: it passes bytes that meet `test` and counts them in `hi`, the first of
the two in `lo` as well. No byte behind the end of the array can be read. -/
def pass (test : UInt8 → Bool) (both : Bool) :
    List UInt8 → Option Int → Nat → Nat → Option Split
  | [], length, lo, hi => do
    if ← more [] length then none else some ⟨[],length,lo,hi⟩
  | c :: str, length, lo, hi => do
    if (← more (c :: str) length) && test c then
      let lo' ← (if both then increment lo else some lo)
      let hi' ← increment hi
      let length' ← decrement length
      pass test both str length' lo' hi'
    else some ⟨c :: str,length,lo,hi⟩

def skipPivots (pivot : UInt8) : List UInt8 → Option Int → Nat → Nat → Option Split :=
  pass (· == pivot) true

def skipWord (pivot : UInt8) : List UInt8 → Option Int → Nat → Nat → Option Split :=
  pass (· != pivot) false

theorem pass_nil {test : UInt8 → Bool} {both : Bool} {length : Option Int} {lo hi : Nat}
    {t : Split} (h : pass test both [] length lo hi = some t) : t.str = [] := by
  simp only [pass,Option.bind_eq_bind,Option.bind_eq_some_iff] at h
  obtain ⟨b,_,h⟩ := h
  cases b <;> cases h
  rfl

theorem pass_cons {test : UInt8 → Bool} {both : Bool} {c : UInt8} {str : List UInt8}
    {length : Option Int} {lo hi : Nat} {t : Split}
    (h : pass test both (c :: str) length lo hi = some t) :
    (∃ length' lo' hi', pass test both str length' lo' hi' = some t) ∨
      t = ⟨c :: str,length,lo,hi⟩ ∧ (more (c :: str) length = some true → test c = false) := by
  simp only [pass,Option.bind_eq_bind,Option.bind_eq_some_iff] at h
  obtain ⟨b,hb,h⟩ := h
  split at h
  · simp only [Option.bind_eq_some_iff] at h
    obtain ⟨lo',_,hi',_,length',_,h⟩ := h
    exact .inl ⟨length',lo',hi',h⟩
  · rename_i hstop
    cases h
    refine .inr ⟨rfl,fun hmore => ?_⟩
    rw [hb] at hmore
    cases hmore
    simpa using hstop

theorem pass_le {test : UInt8 → Bool} {both : Bool} {str : List UInt8} {length : Option Int}
    {lo hi : Nat} {t : Split} (h : pass test both str length lo hi = some t) :
    t.str.length ≤ str.length := by
  induction str generalizing length lo hi with
  | nil => exact Nat.le_of_eq (congrArg List.length (pass_nil h))
  | cons c str ih =>
    rcases pass_cons h with ⟨_,_,_,h⟩ | ⟨rfl,_⟩
    · exact Nat.le_succ_of_le (ih h)
    · exact Nat.le_refl _

/-- The body of the outer loop up to where the range is stored. -/
def Split.inner (pivot : UInt8) (s : Split) : Option Split :=
  (skipPivots pivot s.str s.length s.lo s.hi).bind
    (fun t => skipWord pivot t.str t.length t.lo t.hi)

theorem Split.inner_lt {pivot : UInt8} {s t : Split} (hm : more s.str s.length = some true)
    (h : s.inner pivot = some t) : t.str.length < s.str.length := by
  obtain ⟨u,h1,h2⟩ := Option.bind_eq_some_iff.mp h
  have hle := pass_le h2
  revert h1 hm
  generalize s.str = str, s.length = length
  intro hm h1
  cases str with
  | nil => simp [skipPivots,pass,hm] at h1
  | cons c str =>
    rcases pass_cons h1 with ⟨_,_,_,h1⟩ | ⟨rfl,hc⟩
    · exact Nat.lt_succ_of_le (Nat.le_trans hle (pass_le h1))
    · have hne := hc hm
      rcases pass_cons h2 with ⟨_,_,_,h2⟩ | ⟨rfl,hc'⟩
      · exact Nat.lt_succ_of_le (pass_le h2)
      · have heq := hc' hm
        rw [bne,hne] at heq
        cases heq

def splitLoop (pivot : UInt8) (s : Split) (result : List (Nat × Nat)) :
    Option (List (Nat × Nat)) :=
  match hm : more s.str s.length with
  | none => none
  | some false => some result
  | some true =>
    match ht : s.inner pivot with
    | none => none
    | some t =>
      have _ : t.str.length < s.str.length := Split.inner_lt hm ht
      splitLoop pivot { t with lo := t.hi }
        (if t.lo < t.hi then result ++ [(t.lo,t.hi)] else result)
termination_by s.str.length

theorem splitLoop_done {pivot : UInt8} {s : Split} {result : List (Nat × Nat)}
    (hm : more s.str s.length = some false) : splitLoop pivot s result = some result := by
  rw [splitLoop]
  split
  · rename_i h
    rw [hm] at h
    cases h
  · rfl
  · rename_i h
    rw [hm] at h
    cases h

theorem splitLoop_inner {pivot : UInt8} {s t : Split} {result : List (Nat × Nat)}
    (hm : more s.str s.length = some true) (ht : s.inner pivot = some t) :
    splitLoop pivot s result = splitLoop pivot { t with lo := t.hi }
      (if t.lo < t.hi then result ++ [(t.lo,t.hi)] else result) := by
  rw [splitLoop]
  split
  · rename_i h
    rw [hm] at h
    cases h
  · rename_i h
    rw [hm] at h
    cases h
  · split
    · rename_i h
      rw [ht] at h
      cases h
    · rename_i u h
      rw [ht] at h
      cases h
      rfl

def splitTerminated (str : List UInt8) (pivot : UInt8) : Option (List (Nat × Nat)) :=
  splitLoop pivot ⟨str,none,0,0⟩ []

def splitBounded (str : List UInt8) (length : Int) (pivot : UInt8) :
    Option (List (Nat × Nat)) :=
  splitLoop pivot ⟨str,some length,0,0⟩ []

/-- The `std::string` overload; its `size_t` length becomes an `int`. -/
def split (str : List UInt8) (pivot : UInt8) : Option (List (Nat × Nat)) :=
  splitBounded (str ++ [0]) (Int.bmod str.length (2^32)) pivot

inductive Reads : List UInt8 → Option Int → List UInt8 → Prop
  | terminated (l rest : List UInt8) (hl : 0 ∉ l) : Reads (l ++ 0 :: rest) none l
  | bounded (l rest : List UInt8) : Reads (l ++ rest) (some l.length) l

theorem Reads.more {str l : List UInt8} {length : Option Int} (h : Reads str length l) :
    more str length = some !l.isEmpty := by
  cases h with
  | terminated l rest hl =>
    cases l with
    | nil => rfl
    | cons c l =>
      have hc : c ≠ 0 := fun h => hl (h ▸ List.mem_cons_self)
      simpa [FluentNet.more] using hc
  | bounded l rest =>
    cases l with
    | nil => rfl
    | cons c l =>
      have hpos : ((c :: l).length : Int) ≠ 0 := by
        rw [List.length_cons]
        omega
      simpa only [FluentNet.more,List.isEmpty_cons,Bool.not_false,Option.some.injEq,bne_iff_ne]

theorem Reads.next {str l : List UInt8} {length : Option Int} {c : UInt8}
    (h : Reads str length (c :: l)) : ∃ str' length', str = c :: str' ∧
      decrement length = some length' ∧ Reads str' length' l := by
  generalize hread : c :: l = read at h
  cases h with
  | terminated read rest hl =>
    subst hread
    exact ⟨l ++ 0 :: rest,none,rfl,rfl,.terminated l rest (fun h => hl (List.mem_cons_of_mem _ h))⟩
  | bounded read rest =>
    subst hread
    refine ⟨l ++ rest,some l.length,rfl,?_,.bounded l rest⟩
    have hlen : ((c :: l).length : Int)-1 = l.length := by simp
    rw [decrement,if_pos (by omega),hlen]

theorem Reads.pass {str l : List UInt8} {length : Option Int} (h : Reads str length l)
    (test : UInt8 → Bool) (both : Bool) {lo hi : Nat} (hlo : lo ≤ hi)
    (hbound : hi+l.length < 2^31) :
    ∃ w rest str' length', l = w ++ rest ∧ (∀ c ∈ w, test c = true) ∧
      (∀ c ∈ rest.head?, test c = false) ∧ Reads str' length' rest ∧
      FluentNet.pass test both str length lo hi =
        some ⟨str',length',if both then lo+w.length else lo,hi+w.length⟩ := by
  induction l generalizing str length lo hi with
  | nil =>
    refine ⟨[],[],str,length,rfl,?_,?_,h,?_⟩
    · simp
    · simp
    · have hmore := h.more
      cases str <;> simp [FluentNet.pass,hmore]
  | cons c l ih =>
    have hmore := h.more
    obtain ⟨str',length',rfl,hdec,hnext⟩ := h.next
    cases hc : test c with
    | false =>
      refine ⟨[],c :: l,c :: str',length,rfl,?_,?_,h,?_⟩
      · simp
      · simpa using hc
      · simp [FluentNet.pass,hmore,hc]
    | true =>
      rw [List.length_cons] at hbound
      have hlo' : (if both then increment lo else some lo) = some (if both then lo+1 else lo) := by
        cases both with
        | false => rfl
        | true => exact if_pos (show lo < 2^31-1 by omega)
      have hhi' : increment hi = some (hi+1) := if_pos (by omega)
      have hle : (if both then lo+1 else lo) ≤ hi+1 := by split <;> omega
      obtain ⟨w,rest,str2,length2,rfl,hw,hrest,hreads,hpass⟩ := ih hnext hle (by omega)
      refine ⟨c :: w,rest,str2,length2,rfl,?_,hrest,hreads,?_⟩
      · intro a ha
        rcases List.mem_cons.mp ha with rfl | ha
        · exact hc
        · exact hw a ha
      · simp only [FluentNet.pass,hmore,hc,Option.bind_eq_bind,Option.bind_some,hlo',hhi',hdec,
          List.isEmpty_cons,Bool.not_false,Bool.and_self,if_true]
        rw [hpass]
        cases both <;> simp <;> omega

/-- One round of the outer loop reads one token, or the pivots at the end. -/
theorem Reads.inner {str l : List UInt8} {length : Option Int} (h : Reads str length l)
    (pivot : UInt8) {i : Nat} (hbound : i+l.length < 2^31) :
    ∃ rest t, Split.inner pivot ⟨str,length,i,i⟩ = some t ∧ Reads t.str t.length rest ∧
      t.hi+rest.length = i+l.length ∧ Tokens.scan (· == pivot) i none l =
        (if t.lo < t.hi then [(t.lo,t.hi)] else []) ++ Tokens.scan (· == pivot) t.hi none rest := by
  obtain ⟨s,l1,str1,length1,rfl,hs,_,h1,hskip⟩ := h.pass (· == pivot) true (Nat.le_refl i) hbound
  rw [List.length_append] at hbound
  obtain ⟨w,rest,str2,length2,rfl,hw,hrest,h2,hword⟩ := h1.pass (· != pivot) false
    (Nat.le_refl (i+s.length)) (by omega)
  refine ⟨rest,⟨str2,length2,i+s.length,i+s.length+w.length⟩,?_,h2,?_,?_⟩
  · rw [Split.inner,skipPivots,hskip]
    exact hword
  · simp only [List.length_append]
    omega
  · refine Tokens.scan_token hs (fun a ha => ?_) (fun a ha => ?_) i
    · simpa using hw a ha
    · simpa using hrest a ha

theorem Reads.splitLoop {str l : List UInt8} {length : Option Int} (h : Reads str length l)
    (pivot : UInt8) {i : Nat} (hbound : i+l.length < 2^31) (result : List (Nat × Nat)) :
    FluentNet.splitLoop pivot ⟨str,length,i,i⟩ result =
      some (result ++ Tokens.scan (· == pivot) i none l) := by
  generalize hn : str.length = n
  induction n using Nat.strongRecOn generalizing str l length i result with
  | ind n ih =>
    subst hn
    have hmore := h.more
    cases l with
    | nil => rw [splitLoop_done hmore,Tokens.scan,List.append_nil]
    | cons c l =>
      obtain ⟨rest,t,ht,hreads,hhi,hscan⟩ := h.inner pivot hbound
      have hlt := Split.inner_lt hmore ht
      rw [splitLoop_inner hmore ht,ih t.str.length hlt hreads (i := t.hi) (by omega) _ rfl,hscan]
      split
      · rw [List.append_assoc]
      · rfl

/-- What `split` promises: the maximal runs of bytes other than the pivot, in order. -/
structure Tokenised (str : List UInt8) (pivot : UInt8) (result : List (Nat × Nat)) : Prop where
  runs : ∀ lo hi, (lo,hi) ∈ result ↔ Tokens.IsRun (· == pivot) str lo hi
  nonempty : ∀ r ∈ result, r.1 < r.2
  sorted : result.Pairwise (fun r r' => r.2 < r'.1)
  cover : ∀ j c, str[j]? = some c → c ≠ pivot → ∃! r, r ∈ result ∧ r.1 ≤ j ∧ j < r.2

theorem tokens_tokenised (str : List UInt8) (pivot : UInt8) :
    Tokenised str pivot (Tokens.tokens (· == pivot) str) where
  runs := Tokens.mem_tokens str
  nonempty := fun _ => Tokens.lt_of_mem_tokens
  sorted := Tokens.tokens_sorted str
  cover := fun _ _ hc hne => Tokens.tokens_cover hc (beq_eq_false_iff_ne.mpr hne)

theorem split_eq {str : List UInt8} (pivot : UInt8) (hlen : str.length < 2^31) :
    split str pivot = some (Tokens.tokens (· == pivot) str) := by
  have hint : Int.bmod str.length (2^32) = str.length :=
    Int.bmod_eq_of_le (by omega) (by omega)
  rw [split,hint]
  exact (Reads.bounded str [0]).splitLoop pivot (i := 0) (by omega) []

/-- Up to the largest `int`, every overload returns the tokens of the string. -/
theorem split_tokenises (str : List UInt8) (pivot : UInt8) (hnul : 0 ∉ str)
    (hlen : str.length < 2^31) :
    ∃ result, Tokenised str pivot result ∧ split str pivot = some result ∧
      ∀ rest, splitTerminated (str ++ 0 :: rest) pivot = some result ∧
        splitBounded (str ++ rest) str.length pivot = some result := by
  refine ⟨_,tokens_tokenised str pivot,split_eq pivot hlen,fun rest => ⟨?_,?_⟩⟩
  · exact (Reads.terminated str rest hnul).splitLoop pivot (i := 0) (by omega) []
  · exact (Reads.bounded str rest).splitLoop pivot (i := 0) (by omega) []

theorem split_tokenises_dotted :
    ∃ result, Tokenised [46,49,46,46,50] 46 result ∧ split [46,49,46,46,50] 46 = some result ∧
      ∀ rest, splitTerminated ([46,49,46,46,50] ++ 0 :: rest) 46 = some result ∧
        splitBounded ([46,49,46,46,50] ++ rest) 5 46 = some result :=
  split_tokenises [46,49,46,46,50] 46 (by decide) (by decide)

/-- The length of a string of 2^32 bytes is 0 as an `int`: nothing of it is read. -/
theorem split_truncates :
    0 ∉ List.replicate (2^32) (97 : UInt8) ∧
      split (List.replicate (2^32) 97) 46 = some [] ∧
      ¬Tokenised (List.replicate (2^32) 97) 46 [] := by
  refine ⟨fun h => ?_,?_,fun h => ?_⟩
  · have heq := List.eq_of_mem_replicate h
    cases heq
  · have hzero : Int.bmod (2^32 : Nat) (2^32) = 0 := by decide
    rw [split,List.length_replicate,hzero]
    exact splitLoop_done rfl
  · have hfirst : (List.replicate (2^32) (97 : UInt8))[0]? = some 97 := by
      rw [List.getElem?_replicate,if_pos (by decide)]
    obtain ⟨r,⟨hr,_⟩,_⟩ := h.cover 0 97 hfirst (by decide)
    cases hr


section Decimal

/-- `toDec<T>` for an unsigned `T` of `w` bits; a `char` is signed. -/
def toDec (w : Nat) (str : List UInt8) : BitVec w :=
  str.foldl (fun dec c => dec*10+BitVec.ofInt w (c.toBitVec.toInt-48)) 0

def decimal (n : Nat) : List UInt8 := (Nat.toDigits 10 n).map (fun c => c.toNat.toUInt8)

def digit (n : Nat) : UInt8 := (48+n).toUInt8

theorem decimal_of_lt {n : Nat} (h : n < 10) : decimal n = [digit n] := by
  rw [decimal,Nat.toDigits_of_lt_base h,List.map_singleton,Nat.toNat_digitChar_of_lt_ten h,digit]

theorem decimal_of_le {n : Nat} (h : 10 ≤ n) : decimal n = decimal (n/10) ++ [digit (n%10)] := by
  rw [decimal,Nat.toDigits_of_base_le (by decide) h,List.map_append,List.map_singleton,
    Nat.toNat_digitChar_of_lt_ten (Nat.mod_lt n (by decide))]
  rfl

theorem decimal_ne_nil (n : Nat) : decimal n ≠ [] := by
  rw [decimal,ne_eq,List.map_eq_nil_iff]
  exact Nat.toDigits_ne_nil

theorem decimal_length_le {n k : Nat} (hk : 0 < k) (h : n < 10^k) : (decimal n).length ≤ k := by
  rw [decimal,List.length_map]
  exact (Nat.length_toDigits_le_iff (by decide) hk).mpr h

theorem digit_toNat {n : Nat} (h : n < 10) : (digit n).toNat = 48+n := by
  rw [digit,Nat.toUInt8,UInt8.toNat_ofNat']
  omega

theorem mem_decimal {n : Nat} {c : UInt8} (hc : c ∈ decimal n) : ∃ d < 10, c = digit d := by
  induction n using Nat.strongRecOn with
  | ind n ih =>
    by_cases h : n < 10
    · rw [decimal_of_lt h,List.mem_singleton] at hc
      exact ⟨n,h,hc⟩
    · rw [decimal_of_le (by omega),List.mem_append,List.mem_singleton] at hc
      rcases hc with hc | hc
      · exact ih (n/10) (by omega) hc
      · exact ⟨n%10,Nat.mod_lt n (by decide),hc⟩

theorem decimal_ne {n : Nat} {c pivot : UInt8} (hc : c ∈ decimal n)
    (hp : pivot.toNat < 48 ∨ 57 < pivot.toNat) : (c == pivot) = false := by
  obtain ⟨d,hd,rfl⟩ := mem_decimal hc
  rw [beq_eq_false_iff_ne]
  rintro rfl
  rw [digit_toNat hd] at hp
  omega

theorem toDec_append (w : Nat) (str : List UInt8) (c : UInt8) :
    toDec w (str ++ [c]) = toDec w str*10+BitVec.ofInt w (c.toBitVec.toInt-48) := by
  rw [toDec,List.foldl_append]
  rfl

theorem digit_value (w : Nat) {n : Nat} (h : n < 10) :
    BitVec.ofInt w ((digit n).toBitVec.toInt-48) = BitVec.ofNat w n := by
  have hnat : (digit n).toBitVec.toNat = 48+n := digit_toNat h
  rw [BitVec.toInt_eq_toNat_of_lt (by omega),hnat,← BitVec.ofInt_natCast]
  congr 1
  omega

theorem toDec_decimal (w n : Nat) : toDec w (decimal n) = BitVec.ofNat w n := by
  induction n using Nat.strongRecOn with
  | ind n ih =>
    by_cases h : n < 10
    · rw [decimal_of_lt h,← digit_value w h]
      simp [toDec]
    · have hlt : n%10 < 10 := Nat.mod_lt n (by decide)
      have hn : BitVec.ofNat w n = BitVec.ofNat w (n/10)*10+BitVec.ofNat w (n%10) := by
        have hdiv := Nat.div_add_mod' n 10
        rw [← hdiv,BitVec.ofNat_add,BitVec.ofNat_mul,hdiv]
        rfl
      rw [decimal_of_le (by omega),toDec_append,ih (n/10) (by omega),digit_value w hlt,hn]

theorem decimal_injective {n m : Nat} (h : decimal n = decimal m) : n = m := by
  have hn : n < 2^(n+m) := Nat.lt_of_lt_of_le Nat.lt_two_pow_self (Nat.pow_le_pow_right (by decide) (by omega))
  have hm : m < 2^(n+m) := Nat.lt_of_lt_of_le Nat.lt_two_pow_self (Nat.pow_le_pow_right (by decide) (by omega))
  have heq := toDec_decimal (n+m) n
  rw [h,toDec_decimal] at heq
  have hnat := congrArg BitVec.toNat heq
  rw [BitVec.toNat_ofNat,BitVec.toNat_ofNat,Nat.mod_eq_of_lt hn,Nat.mod_eq_of_lt hm] at hnat
  exact hnat.symm

end Decimal

end FluentNet
