import FluentNet.Logger.Chrono
import FluentNet.Logger.Stream
import Mathlib.Data.List.Induction
set_option autoImplicit false

/-!
The texts of the logger's clock: rows of digits that the compiler makes, copied into
two records, of which the one with the date is kept as long as the day.
-/

namespace FluentNet
namespace Logger
open Calendar

namespace Meta

def leadingZeroNumeric (P I : Nat) : List UInt8 :=
  List.replicate (P-length I) 48 ++ (numericMetaString I).getD []

/-- `LeadingZeroNumericArrayBuilderRange<Begin, End, P, Flag>`: five hundred rows at a
time, and the rest. There is none where the recursion does not end. -/
def leadingZeroRange (P begin fin : Nat) (flag : Bool) : Option (List UInt8) :=
  if flag then some ((List.range' begin (fin-begin)).flatMap (leadingZeroNumeric P))
  else if fin ≤ begin then none
  else (leadingZeroRange P (begin+500) fin (1000 ≥ fin-begin)).map
    (fun rest => (List.range' begin 500).flatMap (leadingZeroNumeric P) ++ rest)
termination_by fin-begin

/-- `LeadingZeroNumericArray<N, P>::buf[i]`, up to the zero at its end. Nothing outside
of the array. -/
def leadingZeroRow (N P : Nat) (i : Int) : Option (List UInt8) :=
  if 0 ≤ i ∧ i < N then
    (leadingZeroRange P 0 N (500 ≥ N)).map (fun chars => (chars.drop (i.toNat*(P+1))).take P)
  else none

def padded (P n : Nat) : List UInt8 := List.replicate (P-(decimal n).length) 48 ++ decimal n

theorem leadingZeroNumeric_eq (P I : Nat) : leadingZeroNumeric P I = padded P I ++ [0] := by
  have hspell : spelling I = decimal I := by simp [spelling]
  rw [leadingZeroNumeric,numericMetaString_spelling,Option.getD_some,length_eq,hspell,padded,List.append_assoc]

theorem padded_length {P n : Nat} (hP : 0 < P) (h : n < 10^P) : (padded P n).length = P := by
  have hle := decimal_length_le hP h
  rw [padded,List.length_append,List.length_replicate]
  omega

theorem leadingZeroRange_eq (P begin fin : Nat) (flag : Bool) (h : flag = false → begin+500 < fin) :
    leadingZeroRange P begin fin flag = some ((List.range' begin (fin-begin)).flatMap (leadingZeroNumeric P)) := by
  induction hn : fin-begin using Nat.strongRecOn generalizing begin flag with
  | ind n ih =>
    subst hn
    rw [leadingZeroRange]
    cases flag with
    | true => rfl
    | false =>
      have hlt := h rfl
      have hsplit : fin-begin = 500+(fin-(begin+500)) := by omega
      have hmore : decide (1000 ≥ fin-begin) = false → begin+500+500 < fin := by
        intro hd
        have hnot := of_decide_eq_false hd
        omega
      rw [if_neg Bool.false_ne_true,if_neg (by omega),ih _ (by omega) (begin+500) _ hmore rfl,Option.map_some]
      rw [hsplit,← List.range'_append,List.flatMap_append,Nat.one_mul]

theorem flatMap_row {f : Nat → List UInt8} {w : Nat} (begin : Nat) {n i : Nat} (hi : i < n)
    (hw : ∀ j < n, (f (begin+j)).length = w) :
    (((List.range' begin n).flatMap f).drop (i*w)).take w = f (begin+i) := by
  induction n generalizing begin i with
  | zero => exact absurd hi (Nat.not_lt_zero i)
  | succ n ih =>
    have hfirst : (f begin).length = w := hw 0 (Nat.succ_pos n)
    rw [List.range'_succ,List.flatMap_cons]
    cases i with
    | zero =>
      rw [Nat.zero_mul,List.drop_zero,← hfirst,List.take_left']
      · rfl
      · rfl
    | succ i =>
      have hnext := ih (begin+1) (i := i) (by omega) (fun j hj => by
        have hj' := hw (j+1) (by omega)
        rwa [Nat.add_comm j 1,← Nat.add_assoc] at hj')
      rw [Nat.succ_mul,Nat.add_comm (i*w),← hfirst,← List.drop_drop,List.drop_left,hfirst,hnext]
      congr 1
      omega

theorem leadingZeroRow_eq {N P i : Nat} (hi : i < N) (hP : 0 < P) (hN : N ≤ 10^P) :
    leadingZeroRow N P i = some (padded P i) := by
  have hall := leadingZeroRange_eq P 0 N (decide (500 ≥ N)) (fun h => by
    have hnot := of_decide_eq_false h
    omega)
  have hrow := flatMap_row (f := leadingZeroNumeric P) (w := P+1) 0 hi (fun j hj => by
    rw [leadingZeroNumeric_eq,List.length_append,padded_length hP (by omega),List.length_singleton])
  rw [leadingZeroRow,if_pos ⟨by omega,by omega⟩,hall,Option.map_some,Nat.sub_zero,Int.toNat_natCast]
  rw [Nat.zero_add] at hrow
  have htake := congrArg (List.take P) hrow
  rw [List.take_take,Nat.min_eq_left (Nat.le_succ P),leadingZeroNumeric_eq,
    List.take_left' (padded_length hP (by omega))] at htake
  rw [htake]

theorem padded_value {P n : Nat} : toDec 64 (padded P n) = BitVec.ofNat 64 n := by
  have hzeros : ∀ k, (List.replicate k (48 : UInt8)).foldl
      (fun dec c => dec*10+BitVec.ofInt 64 (c.toBitVec.toInt-48)) 0 = 0 := by
    intro k
    induction k with
    | zero => rfl
    | succ k ih =>
      rw [List.replicate_succ,List.foldl_cons]
      exact ih
  rw [padded,toDec,List.foldl_append,hzeros]
  exact toDec_decimal 64 n

theorem padded_injective {P m n : Nat} (hm : m < 2^64) (hn : n < 2^64) (h : padded P m = padded P n) : m = n := by
  have hvalue := congrArg (fun text => (toDec 64 text).toNat) h
  simpa only [padded_value,BitVec.toNat_ofNat,Nat.mod_eq_of_lt hm,Nat.mod_eq_of_lt hn] using hvalue

end Meta

namespace Chrono
open Meta

/-! Nanoseconds, as the clock counts them. -/

def DAY : Int := 86400000000000
def HOUR : Int := 3600000000000
def MINUTE : Int := 60000000000
def SECOND : Int := 1000000000
def MILLISECOND : Int := 1000000

structure Time where
  h : Int
  m : Int
  s : Int
  S : Int
  deriving DecidableEq, Repr

def durationCast (unit duration : Int) : Int := duration.tdiv unit

def getDate (point : Int) : Option Date := calDate (durationCast DAY point)

def calTime (duration : Int) : Time :=
  let duration := duration-durationCast DAY duration*DAY
  let h := durationCast HOUR duration
  let duration := duration-h*HOUR
  let m := durationCast MINUTE duration
  let duration := duration-m*MINUTE
  let s := durationCast SECOND duration
  let duration := duration-s*SECOND
  ⟨h,m,s,durationCast MILLISECOND duration⟩

def thisDay (point : Int) : Int := durationCast DAY point*DAY

structure Records where
  dateRecord : List UInt8
  timeRecord : List UInt8
  last : Int
  deriving DecidableEq, Repr

def Records.init : Records :=
  ⟨[49,57,55,48,45,48,49,45,48,49],[48,48,58,48,48,58,48,48,46,48,48,48],0⟩

def memcpy (record : List UInt8) (off : Nat) (text : List UInt8) : List UInt8 :=
  record.take off ++ text ++ record.drop (off+text.length)

def Records.updateDate (s : Records) (point : Int) (date : Date) : Option Records := do
  let year ← leadingZeroRow 2050 4 date.y
  let month ← leadingZeroRow 100 2 date.m
  let day ← leadingZeroRow 100 2 date.d
  some { s with
    last := thisDay point
    dateRecord := memcpy (memcpy (memcpy s.dateRecord 0 year) 5 month) 8 day }

def Records.updateTime (s : Records) (point : Int) : Option Records := do
  let time := calTime point
  let hour ← leadingZeroRow 100 2 time.h
  let minute ← leadingZeroRow 100 2 time.m
  let second ← leadingZeroRow 100 2 time.s
  let millisecond ← leadingZeroRow 1000 3 time.S
  some { s with
    timeRecord := memcpy (memcpy (memcpy (memcpy s.timeRecord 0 hour) 3 minute) 6 second) 9 millisecond }

/-- Nothing where a row is read that the arrays do not have. -/
def format (s : Records) (point : Int) : Option Records := do
  let date ← getDate point
  let s ← (if point-s.last ≥ DAY then s.updateDate point date else some s)
  s.updateTime point

/-! What the texts should be. -/

/-- A point of the clock, which counts in 64 bits, from the epoch on. -/
def SinceEpoch (point : Int) : Prop := 0 ≤ point ∧ point < 2^63

instance (point : Int) : Decidable (SinceEpoch point) := inferInstanceAs (Decidable (_ ∧ _))

def dateOf (point : Int) : Date := civil (point/DAY)

def dateText (a : Date) : List UInt8 :=
  padded 4 a.y.toNat ++ (45 :: padded 2 a.m ++ (45 :: padded 2 a.d))

def clockText (h m s S : Nat) : List UInt8 :=
  padded 2 h ++ (58 :: padded 2 m ++ (58 :: padded 2 s ++ (46 :: padded 3 S)))

def timeText (point : Int) : List UInt8 :=
  clockText (point%DAY/HOUR).toNat (point%HOUR/MINUTE).toNat (point%MINUTE/SECOND).toNat
    (point%SECOND/MILLISECOND).toNat

section Formats
variable {s : Records} {point : Int}

theorem memcpy_at (pre old post : List UInt8) {record text : List UInt8} {off : Nat} (hrecord : record = pre ++ (old ++ post))
    (hoff : pre.length = off) (h : old.length = text.length) : memcpy record off text = pre ++ (text ++ post) := by
  subst hoff
  rw [memcpy,hrecord,List.take_left,← h,← List.length_append,← List.append_assoc,List.drop_left,List.append_assoc]

theorem calTime_eq (h : 0 ≤ point) :
    calTime point = ⟨point%DAY/HOUR,point%HOUR/MINUTE,point%MINUTE/SECOND,point%SECOND/MILLISECOND⟩ := by
  have hcast : ∀ unit d : Int, 0 ≤ d → durationCast unit d = d/unit := fun unit d hd =>
    Int.tdiv_eq_ediv_of_nonneg hd
  have hless : ∀ unit d : Int, 0 < unit → d-d/unit*unit = d%unit := by
    intro unit d _
    have hdiv := Int.emod_add_mul_ediv d unit
    rw [Int.mul_comm] at hdiv
    omega
  have hday := Int.emod_nonneg point (show DAY ≠ 0 by decide)
  have hhour := Int.emod_nonneg point (show HOUR ≠ 0 by decide)
  have hminute := Int.emod_nonneg point (show MINUTE ≠ 0 by decide)
  have hsecond := Int.emod_nonneg point (show SECOND ≠ 0 by decide)
  simp only [calTime,hcast _ _ h,hless _ _ (show 0 < DAY by decide),hcast _ _ hday,
    hless _ _ (show 0 < HOUR by decide),Int.emod_emod_of_dvd point (show HOUR ∣ DAY by decide),hcast _ _ hhour,
    hless _ _ (show 0 < MINUTE by decide),Int.emod_emod_of_dvd point (show MINUTE ∣ HOUR by decide),hcast _ _ hminute,
    hless _ _ (show 0 < SECOND by decide),Int.emod_emod_of_dvd point (show SECOND ∣ MINUTE by decide),hcast _ _ hsecond]

def Clocked (text : List UInt8) : Prop :=
  ∃ h < 100, ∃ m < 100, ∃ s < 100, ∃ S < 1000, text = clockText h m s S

theorem updateTime_eq (h : 0 ≤ point) (htime : Clocked s.timeRecord) :
    Clocked (timeText point) ∧ s.updateTime point = some { s with timeRecord := timeText point } := by
  obtain ⟨h₀,hh,m₀,hm,s₀,hs,S₀,hS,htime⟩ := htime
  have htwo : ∀ n < 100, (padded 2 n).length = 2 := fun n hn => padded_length (by decide) hn
  have hthree : ∀ n < 1000, (padded 3 n).length = 3 := fun n hn => padded_length (by decide) hn
  have hdigits : ∀ unit more : Int, 0 < more → 0 < unit → more ≤ 100*unit →
      ∃ n < 100, point%more/unit = ((n : Nat) : Int) := by
    intro unit more hmore hunit hle
    have hnonneg : 0 ≤ point%more/unit := Int.ediv_nonneg (Int.emod_nonneg _ (by omega)) (by omega)
    have hlt : point%more/unit < 100 :=
      Int.ediv_lt_of_lt_mul hunit (Int.lt_of_lt_of_le (Int.emod_lt_of_pos _ hmore) hle)
    exact ⟨(point%more/unit).toNat,by omega,by omega⟩
  have hmilli : ∃ n < 1000, point%SECOND/MILLISECOND = ((n : Nat) : Int) := by
    unfold SECOND MILLISECOND
    exact ⟨(point%1000000000/1000000).toNat,by omega,by omega⟩
  obtain ⟨h₁,hh',hhour⟩ := hdigits HOUR DAY (by decide) (by decide) (by decide)
  obtain ⟨m₁,hm',hminute⟩ := hdigits MINUTE HOUR (by decide) (by decide) (by decide)
  obtain ⟨s₁,hs',hsecond⟩ := hdigits SECOND MINUTE (by decide) (by decide) (by decide)
  obtain ⟨S₁,hS',hmilli⟩ := hmilli
  have hrow : ∀ n : Nat, n < 100 → leadingZeroRow 100 2 n = some (padded 2 n) :=
    fun n hn => leadingZeroRow_eq hn (by decide) (by decide)
  have hrow' : leadingZeroRow 1000 3 S₁ = some (padded 3 S₁) := leadingZeroRow_eq hS' (by decide) (by decide)
  have htext : timeText point = clockText h₁ m₁ s₁ S₁ := by
    simp only [timeText,hhour,hminute,hsecond,hmilli,Int.toNat_natCast]
  refine ⟨⟨h₁,hh',m₁,hm',s₁,hs',S₁,hS',htext⟩,?_⟩
  have hfirst : memcpy (clockText h₀ m₀ s₀ S₀) 0 (padded 2 h₁) = clockText h₁ m₀ s₀ S₀ :=
    memcpy_at [] (padded 2 h₀) _ rfl rfl ((htwo _ hh).trans (htwo _ hh').symm)
  have hsecond' : memcpy (clockText h₁ m₀ s₀ S₀) 3 (padded 2 m₁) = clockText h₁ m₁ s₀ S₀ := by
    rw [memcpy_at (padded 2 h₁ ++ [58]) (padded 2 m₀) (58 :: padded 2 s₀ ++ (46 :: padded 3 S₀))
      (by simp [clockText]) (by simp [htwo _ hh']) ((htwo _ hm).trans (htwo _ hm').symm)]
    simp [clockText]
  have hthird : memcpy (clockText h₁ m₁ s₀ S₀) 6 (padded 2 s₁) = clockText h₁ m₁ s₁ S₀ := by
    rw [memcpy_at (padded 2 h₁ ++ 58 :: padded 2 m₁ ++ [58]) (padded 2 s₀) (46 :: padded 3 S₀)
      (by simp [clockText]) (by simp [htwo _ hh',htwo _ hm']) ((htwo _ hs).trans (htwo _ hs').symm)]
    simp [clockText]
  have hfourth : memcpy (clockText h₁ m₁ s₁ S₀) 9 (padded 3 S₁) = clockText h₁ m₁ s₁ S₁ := by
    rw [memcpy_at (padded 2 h₁ ++ 58 :: padded 2 m₁ ++ 58 :: padded 2 s₁ ++ [46]) (padded 3 S₀) []
      (by simp [clockText]) (by simp [htwo _ hh',htwo _ hm',htwo _ hs']) ((hthree _ hS).trans (hthree _ hS').symm)]
    simp [clockText]
  simp only [Records.updateTime,calTime_eq h,hhour,hminute,hsecond,hmilli,hrow _ hh',hrow _ hm',hrow _ hs',hrow',
    Option.bind_eq_bind,Option.bind_some,htime,hfirst,hsecond',hthird,hfourth,htext]

structure Fits (a : Date) : Prop where
  valid : a.Valid
  year : 0 ≤ a.y ∧ a.y < 2050

theorem Fits.month {a : Date} (h : Fits a) : a.m < 100 := by
  have hm := h.valid.month
  omega

theorem Fits.day {a : Date} (h : Fits a) : a.d < 100 := by
  have hd := h.valid.day
  have hle : daysIn a.y a.m ≤ 31 := by
    unfold daysIn
    split
    · split <;> decide
    all_goals decide
  omega

theorem dateText_injective {a b : Date} (ha : Fits a) (hb : Fits b) (h : dateText a = dateText b) : a = b := by
  have hyear : ∀ c : Date, Fits c → (padded 4 c.y.toNat).length = 4 := by
    intro c hc
    have hy := hc.year
    exact padded_length (by decide) (by omega)
  have htwo : ∀ n < 100, (padded 2 n).length = 2 := fun n hn => padded_length (by decide) hn
  have hay := ha.year
  have hby := hb.year
  have ham := ha.month
  have hbm := hb.month
  have had := ha.day
  have hbd := hb.day
  obtain ⟨hy,hrest⟩ := List.append_inj h ((hyear a ha).trans (hyear b hb).symm)
  obtain ⟨hm,hrest⟩ := List.append_inj (List.cons.inj hrest).2 ((htwo _ ham).trans (htwo _ hbm).symm)
  have hd := (List.cons.inj hrest).2
  have hy' := padded_injective (by omega) (by omega) hy
  exact Date.ext (by omega) (padded_injective (by omega) (by omega) hm) (padded_injective (by omega) (by omega) hd)

theorem updateDate_eq {a b : Date} (ha : Fits a) (hdate : s.dateRecord = dateText a) (hb : Fits b) :
    s.updateDate point b = some { s with last := thisDay point, dateRecord := dateText b } := by
  simp only [Records.updateDate,hdate]
  have hfour : ∀ c : Date, Fits c → (padded 4 c.y.toNat).length = 4 := by
    intro c hc
    have hy := hc.year
    exact padded_length (by decide) (by omega)
  have htwo : ∀ n < 100, (padded 2 n).length = 2 := fun n hn => padded_length (by decide) hn
  have hyear : leadingZeroRow 2050 4 b.y = some (padded 4 b.y.toNat) := by
    have hy := hb.year
    have hrow : leadingZeroRow 2050 4 b.y.toNat = some (padded 4 b.y.toNat) :=
      leadingZeroRow_eq (by omega) (by decide) (by decide)
    rwa [Int.toNat_of_nonneg hy.1] at hrow
  have hrow : ∀ n : Nat, n < 100 → leadingZeroRow 100 2 n = some (padded 2 n) :=
    fun n hn => leadingZeroRow_eq hn (by decide) (by decide)
  have hfirst : memcpy (dateText a) 0 (padded 4 b.y.toNat) = dateText ⟨b.y,a.m,a.d⟩ :=
    memcpy_at [] (padded 4 a.y.toNat) _ rfl rfl ((hfour a ha).trans (hfour b hb).symm)
  have hsecond : memcpy (dateText ⟨b.y,a.m,a.d⟩) 5 (padded 2 b.m) = dateText ⟨b.y,b.m,a.d⟩ := by
    rw [memcpy_at (padded 4 b.y.toNat ++ [45]) (padded 2 a.m) (45 :: padded 2 a.d) (by simp [dateText])
      (by simp [hfour b hb]) ((htwo _ ha.month).trans (htwo _ hb.month).symm)]
    simp [dateText]
  have hthird : memcpy (dateText ⟨b.y,b.m,a.d⟩) 8 (padded 2 b.d) = dateText b := by
    rw [memcpy_at (padded 4 b.y.toNat ++ 45 :: padded 2 b.m ++ [45]) (padded 2 a.d) [] (by simp [dateText])
      (by simp [hfour b hb,htwo _ hb.month]) ((htwo _ ha.day).trans (htwo _ hb.day).symm)]
    simp [dateText]
  rw [hyear,hrow _ hb.month,hrow _ hb.day]
  simp only [Option.bind_eq_bind,Option.bind_some,hfirst,hsecond,hthird]

theorem updateDate_none {b : Date} (h : 2050 ≤ b.y) : s.updateDate point b = none := by
  have hyear : leadingZeroRow 2050 4 b.y = none := if_neg (by omega)
  simp only [Records.updateDate,hyear,Option.bind_eq_bind,Option.bind_none]

end Formats

section Calls

def formats (s : Records) (points : List Int) : Option Records := points.foldlM format s

/-- What the records hold after calls for `points`: the date of the latest day of all. -/
structure Records.Kept (points : List Int) (s : Records) : Prop where
  date : ∃ z, s.last = z*DAY ∧ 0 ≤ z ∧ Fits (civil z) ∧ s.dateRecord = dateText (civil z) ∧
    (∀ p ∈ points, p/DAY ≤ z) ∧ (z = 0 ∨ ∃ p ∈ points, p/DAY = z)
  time : Clocked s.timeRecord

variable {s : Records} {points : List Int} {point : Int}

theorem Records.Kept.initial : Records.init.Kept [] := by
  have hepoch := civil_epoch
  have hvalid := civil_numbers.valid 0
  refine ⟨⟨0,rfl,Int.le_refl _,⟨hvalid,?_⟩,?_,by simp,.inl rfl⟩,0,by decide,0,by decide,0,by decide,0,by decide,by decide⟩
  · rw [hepoch]
    decide
  · rw [hepoch]
    decide

theorem getDate_eq (h : SinceEpoch point) : getDate point = some (dateOf point) := by
  obtain ⟨h0,hlt⟩ := h
  rw [getDate,durationCast,Int.tdiv_eq_ediv_of_nonneg h0,calDate,if_pos]
  · rfl
  · unfold DAY
    omega

theorem year_mono {i j : Int} (h : i ≤ j) : (civil i).y ≤ (civil j).y := by
  rcases Int.lt_or_eq_of_le h with hlt | rfl
  · have hb := civil_numbers.before hlt
    unfold Date.Before at hb
    omega
  · exact Int.le_refl _

theorem fits_of {z : Int} (h : 0 ≤ z) (hy : (civil z).y < 2050) : Fits (civil z) := by
  have hle := year_mono h
  rw [civil_epoch] at hle
  have hle' : 1970 ≤ (civil z).y := hle
  exact ⟨civil_numbers.valid z,by omega,hy⟩

/-- A call tells the time; the date it changes on a day later than those before. -/
theorem Records.Kept.format (h : s.Kept points) (hp : SinceEpoch point) :
    ((dateOf point).y < 2050 → ∃ t, Chrono.format s point = some t ∧ t.Kept (points ++ [point]) ∧
      t.timeRecord = timeText point) ∧
    (2050 ≤ (dateOf point).y → Chrono.format s point = none) := by
  obtain ⟨⟨z,hlast,hz,hfits,hdate,hall,hsome⟩,htime⟩ := h
  have hlater : point-s.last ≥ DAY ↔ z < point/DAY := by
    unfold DAY at *
    omega
  have hday : 0 ≤ point/DAY := Int.ediv_nonneg hp.1 (by decide)
  have hformat : Chrono.format s point = (if point-s.last ≥ DAY then s.updateDate point (dateOf point) else some s).bind
      (fun s => s.updateTime point) := by
    rw [Chrono.format,getDate_eq hp]
    rfl
  rw [hformat]
  refine ⟨fun hy => ?_,fun hy => ?_⟩
  · have hfits' : Fits (dateOf point) := fits_of hday hy
    obtain ⟨hclocked,_⟩ := updateTime_eq hp.1 htime
    have htell : ∀ u : Records, u.timeRecord = s.timeRecord →
        u.updateTime point = some { u with timeRecord := timeText point } :=
      fun u hu => (updateTime_eq hp.1 (hu ▸ htime)).2
    by_cases hlt : z < point/DAY
    · refine ⟨{ last := thisDay point, dateRecord := dateText (dateOf point), timeRecord := timeText point },?_,
        ⟨⟨point/DAY,?_,hday,hfits',rfl,fun p hp' => ?_,.inr ⟨point,by simp,rfl⟩⟩,hclocked⟩,rfl⟩
      · rw [if_pos (hlater.mpr hlt),updateDate_eq hfits hdate hfits',Option.bind_some]
        exact htell _ rfl
      · exact congrArg (·*DAY) (Int.tdiv_eq_ediv_of_nonneg hp.1)
      · rcases List.mem_append.mp hp' with hin | hin
        · exact Int.le_trans (hall p hin) (Int.le_of_lt hlt)
        · exact Int.le_of_eq (congrArg (·/DAY) (List.mem_singleton.mp hin))
    · refine ⟨{ s with timeRecord := timeText point },?_,⟨⟨z,hlast,hz,hfits,hdate,fun p hp' => ?_,?_⟩,hclocked⟩,rfl⟩
      · rw [if_neg (fun hlt' => hlt (hlater.mp hlt')),Option.bind_some]
        exact htell s rfl
      · rcases List.mem_append.mp hp' with hin | hin
        · exact hall p hin
        · rw [List.mem_singleton.mp hin]
          exact Int.not_lt.mp hlt
      · exact hsome.imp_right (fun ⟨p,hin,hpz⟩ => ⟨p,List.mem_append_left _ hin,hpz⟩)
  · have hzy := hfits.year
    have hlt : z < point/DAY := by
      refine Int.not_le.mp (fun hle => ?_)
      have hle' := year_mono hle
      rw [dateOf] at hy
      omega
    rw [if_pos (hlater.mpr hlt),updateDate_none hy,Option.bind_none]

theorem formats_append (s : Records) (points more : List Int) :
    formats s (points ++ more) = (formats s points).bind (fun t => formats t more) := List.foldlM_append

theorem Records.Kept.formats (hp : ∀ p ∈ points, SinceEpoch p) :
    ((∀ p ∈ points, (dateOf p).y < 2050) → ∃ t, Chrono.formats .init points = some t ∧ t.Kept points) ∧
    ((∃ p ∈ points, 2050 ≤ (dateOf p).y) → Chrono.formats .init points = none) := by
  induction points using List.reverseRecOn with
  | nil => exact ⟨fun _ => ⟨_,rfl,.initial⟩,fun ⟨p,hp,_⟩ => absurd hp List.not_mem_nil⟩
  | append_singleton points point ih =>
    obtain ⟨hdefined,hnone⟩ := ih (fun p hin => hp p (List.mem_append_left _ hin))
    have hpoint : SinceEpoch point := hp point (by simp)
    rw [formats_append]
    refine ⟨fun hy => ?_,fun ⟨p,hin,hy⟩ => ?_⟩
    · obtain ⟨t,ht,hkept⟩ := hdefined (fun p hin => hy p (List.mem_append_left _ hin))
      obtain ⟨u,hu,hkept',_⟩ := (hkept.format hpoint).1 (hy point (by simp))
      refine ⟨u,?_,hkept'⟩
      rw [ht,Option.bind_some,Chrono.formats,List.foldlM_cons,hu]
      rfl
    · by_cases hall : ∀ p ∈ points, (dateOf p).y < 2050
      · obtain ⟨t,ht,hkept⟩ := hdefined hall
        have hlast : p = point := by
          rcases List.mem_append.mp hin with hin | hin
          · exact absurd hy (Int.not_le.mpr (hall p hin))
          · exact List.mem_singleton.mp hin
        subst hlast
        rw [ht,Option.bind_some,Chrono.formats,List.foldlM_cons,(hkept.format hpoint).2 hy]
        rfl
      · simp only [not_forall,Int.not_lt,exists_prop] at hall
        rw [hnone hall,Option.bind_none]

theorem Records.Kept.of_formats (hp : ∀ p ∈ points, SinceEpoch p) (hs : Chrono.formats .init points = some s) :
    s.Kept points ∧ ∀ p ∈ points, (dateOf p).y < 2050 := by
  obtain ⟨hdefined,hnone⟩ := Records.Kept.formats hp
  have hy : ∀ p ∈ points, (dateOf p).y < 2050 := by
    intro p hin
    refine Int.not_le.mp (fun hy => ?_)
    rw [hnone ⟨p,hin,hy⟩] at hs
    cases hs
  obtain ⟨t,ht,hkept⟩ := hdefined hy
  rw [hs] at ht
  cases ht
  exact ⟨hkept,hy⟩

theorem Records.Kept.dated (h : s.Kept (points ++ [point])) (hp : SinceEpoch point) (hy : (dateOf point).y < 2050) :
    s.dateRecord = dateText (dateOf point) ↔ ∀ p ∈ points, p/DAY ≤ point/DAY := by
  obtain ⟨⟨z,_,hz,hfits,hdate,hall,hsome⟩,_⟩ := h
  have hfits' : Fits (dateOf point) := by
    exact fits_of (Int.ediv_nonneg hp.1 (by decide)) hy
  -- the date of another day is another text
  have hsame : s.dateRecord = dateText (dateOf point) ↔ z = point/DAY := by
    rw [hdate]
    refine ⟨fun h => ?_,fun h => ?_⟩
    · exact civil_numbers.injective (dateText_injective hfits hfits' h)
    · rw [h]
      rfl
  rw [hsame]
  refine ⟨fun h p hin => h ▸ hall p (List.mem_append_left _ hin),fun h => ?_⟩
  have hle := hall point (by simp)
  have hge : z ≤ point/DAY := by
    rcases hsome with rfl | ⟨p,hin,rfl⟩
    · exact Int.ediv_nonneg hp.1 (by decide)
    · rcases List.mem_append.mp hin with hin | hin
      · exact h p hin
      · exact Int.le_of_eq (congrArg (·/DAY) (List.mem_singleton.mp hin))
  exact Int.le_antisymm hge hle

theorem formats_snoc (hp : ∀ p ∈ points ++ [point], SinceEpoch p) (hs : formats .init points = some s)
    (hy : (dateOf point).y < 2050) : ∃ t, format s point = some t ∧ formats .init (points ++ [point]) = some t ∧
      t.Kept (points ++ [point]) ∧ t.timeRecord = timeText point := by
  obtain ⟨hkept,_⟩ := Records.Kept.of_formats (fun p hin => hp p (List.mem_append_left _ hin)) hs
  obtain ⟨t,ht,hkept',htime⟩ := (hkept.format (hp point (by simp))).1 hy
  refine ⟨t,ht,?_,hkept',htime⟩
  rw [formats_append,hs,Option.bind_some,formats,List.foldlM_cons,ht]
  rfl

/-- Whatever the calls were, the time is right; the date is unless an earlier call was
for a later day. No call is defined once there was one for a year without a row. -/
theorem format_texts (hp : ∀ p ∈ points ++ [point], SinceEpoch p) :
    ((formats .init (points ++ [point])).isSome ↔ ∀ p ∈ points ++ [point], (dateOf p).y < 2050) ∧
    ∀ t, formats .init (points ++ [point]) = some t →
      t.timeRecord = timeText point ∧
      (t.dateRecord = dateText (dateOf point) ↔ ∀ p ∈ points, p/DAY ≤ point/DAY) := by
  have hpoint : SinceEpoch point := hp point (by simp)
  refine ⟨⟨fun hsome => ?_,fun hy => ?_⟩,fun t ht => ?_⟩
  · obtain ⟨t,ht⟩ := Option.isSome_iff_exists.mp hsome
    exact (Records.Kept.of_formats hp ht).2
  · obtain ⟨t,ht,_⟩ := (Records.Kept.formats hp).1 hy
    exact Option.isSome_iff_exists.mpr ⟨t,ht⟩
  obtain ⟨hkept,hy⟩ := Records.Kept.of_formats hp ht
  obtain ⟨s,hs,_⟩ := (Records.Kept.formats (fun p hin => hp p (List.mem_append_left _ hin))).1
    (fun p hin => hy p (List.mem_append_left _ hin))
  obtain ⟨u,_,hu,_,htime⟩ := formats_snoc hp hs (hy point (by simp))
  rw [ht] at hu
  cases hu
  exact ⟨htime,hkept.dated hpoint (hy point (by simp))⟩

/-- In the evening, at midnight, and a second before it once more: then the time is
that of the evening, the date is not. -/
theorem format_texts_backwards :
    ∃ t, formats .init ([86399*SECOND,DAY] ++ [86399*SECOND]) = some t ∧
      t.timeRecord = timeText (86399*SECOND) ∧ t.dateRecord ≠ dateText (dateOf (86399*SECOND)) := by
  have hp : ∀ p ∈ [86399*SECOND,DAY] ++ [86399*SECOND], SinceEpoch p := by decide
  obtain ⟨hsome,htexts⟩ := format_texts hp
  have hyears : ∀ p ∈ [86399*SECOND,DAY] ++ [86399*SECOND], (dateOf p).y < 2050 := by decide +kernel
  obtain ⟨t,ht⟩ := Option.isSome_iff_exists.mp (hsome.mpr hyears)
  obtain ⟨htime,hdate⟩ := htexts t ht
  refine ⟨t,ht,htime,fun h => ?_⟩
  have hless := hdate.mp h DAY (by decide)
  revert hless
  decide

end Calls

end Chrono

end Logger
end FluentNet
