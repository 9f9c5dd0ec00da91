import FluentNet.Library.Calendar
import Mathlib.Algebra.Group.Int.Defs
set_option autoImplicit false

/-!
The logger's clock: the date of a day.
-/

namespace FluentNet
namespace Logger
open Calendar

namespace Chrono

def yoeOf (doe : Nat) : Nat := (doe-doe/1460+doe/36524-doe/146096)/365

/-- How many days of the era come before the year; it begins in March. -/
def before (yoe : Nat) : Nat := 365*yoe+yoe/4-yoe/100

def mpOf (doy : Nat) : Nat := (5*doy+2)/153
def dayOf (doy : Nat) : Nat := doy-(153*mpOf doy+2)/5+1
def monthOf (doy : Nat) : Nat := if mpOf doy < 10 then mpOf doy+3 else mpOf doy-9

/-- The body of `calDate`. The unsigned numbers are those that the source gives ranges
for, so none of them wraps. -/
def civil (z : Int) : Date :=
  let z := z+719468
  let era := (if z ≥ 0 then z else z-146096).tdiv 146097
  let doe := (z-era*146097).toNat
  let yoe := yoeOf doe
  let y := yoe+era*400
  let doy := doe-before yoe
  let m := monthOf doy
  ⟨y+(if m ≤ 2 then 1 else 0),m,dayOf doy⟩

/-- Nothing where `z += 719468` leaves an `int`. -/
def calDate (z : Int) : Option Date :=
  if -(2^31) ≤ z ∧ z+719468 < 2^31 then some (civil z) else none

section Years

theorem yoeOf_mono {i j : Nat} (h : i ≤ j) : yoeOf i ≤ yoeOf j := by
  induction h with
  | refl => exact Nat.le_refl _
  | step _ ih =>
    refine Nat.le_trans ih (Nat.div_le_div_right ?_)
    omega

def finish (yoe : Nat) : Nat := if yoe = 399 then 146096 else before (yoe+1)-1

theorem yoeOf_ends : ∀ yoe < 400, yoeOf (before yoe) = yoe ∧ yoeOf (finish yoe) = yoe ∧ before yoe+364 ≤ finish yoe ∧
    finish yoe ≤ before yoe+365 ∧ (finish yoe = before yoe+365 ↔ leap (yoe+1)) := by
  decide +kernel

theorem before_year {doe : Nat} (h : doe ≤ 146096) : ∃ yoe < 400, before yoe ≤ doe ∧ doe ≤ finish yoe := by
  have hall : ∀ n ≤ 400, (∃ yoe < n, before yoe ≤ doe ∧ doe ≤ finish yoe) ∨ (n < 400 ∧ before n ≤ doe) := by
    intro n
    induction n with
    | zero => exact fun _ => .inr ⟨by decide,Nat.zero_le _⟩
    | succ n ih =>
      intro hn
      rcases ih (by omega) with ⟨yoe,hy,hle⟩ | ⟨hlt,hle⟩
      · exact .inl ⟨yoe,by omega,hle⟩
      · by_cases hin : doe ≤ finish n
        · exact .inl ⟨n,Nat.lt_succ_self n,hle,hin⟩
        · refine .inr ?_
          unfold finish at hin
          split at hin
          · omega
          · exact ⟨by omega,by omega⟩
  rcases hall 400 (Nat.le_refl _) with h | ⟨h,_⟩
  · exact h
  · exact absurd h (Nat.lt_irrefl _)

theorem year_spec {doe : Nat} (h : doe ≤ 146096) :
    yoeOf doe < 400 ∧ before (yoeOf doe) ≤ doe ∧ doe ≤ finish (yoeOf doe) ∧ doe-before (yoeOf doe) ≤ 365 := by
  obtain ⟨yoe,hy,hle,hge⟩ := before_year h
  obtain ⟨hfirst,hlast,_,hlong,_⟩ := yoeOf_ends yoe hy
  have hsame : yoeOf doe = yoe := by
    have hlow := yoeOf_mono hle
    have hhigh := yoeOf_mono hge
    omega
  rw [hsame]
  exact ⟨hy,hle,hge,by omega⟩

theorem yoeOf_eq {doe yoe : Nat} (hy : yoe < 400) (hle : before yoe ≤ doe) (hge : doe ≤ finish yoe) :
    yoeOf doe = yoe := by
  obtain ⟨hfirst,hlast,_⟩ := yoeOf_ends yoe hy
  have hlow := yoeOf_mono hle
  have hhigh := yoeOf_mono hge
  omega

end Years

section Days

def dateIn (y : Int) (doy : Nat) : Date := ⟨y+(if monthOf doy ≤ 2 then 1 else 0),monthOf doy,dayOf doy⟩

theorem daysIn_other (y y' : Int) {m : Nat} (h : m ≠ 2) : daysIn y m = daysIn y' m := by
  unfold daysIn
  split
  · exact absurd rfl h
  all_goals rfl

theorem daysIn_february (y : Int) : 28 ≤ daysIn y 2 := by
  unfold daysIn
  split
  · split <;> decide
  all_goals contradiction

theorem months : ∀ doy < 364,
    (1 ≤ monthOf doy ∧ monthOf doy ≤ 12 ∧ 1 ≤ dayOf doy) ∧
    ((dayOf doy < (if monthOf doy = 2 then 28 else daysIn 0 (monthOf doy)) ∧
        monthOf (doy+1) = monthOf doy ∧ dayOf (doy+1) = dayOf doy+1) ∨
      (monthOf doy ≠ 2 ∧ dayOf doy = daysIn 0 (monthOf doy) ∧ dayOf (doy+1) = 1 ∧
        (monthOf doy = 12 ∧ monthOf (doy+1) = 1 ∨
          monthOf doy < 12 ∧ monthOf (doy+1) = monthOf doy+1 ∧ (monthOf doy ≤ 2 ↔ monthOf (doy+1) ≤ 2)))) := by
  decide +kernel

theorem dateIn_step {y : Int} {doy : Nat} (h : doy < 364) :
    (dateIn y doy).Valid ∧ dateIn y (doy+1) = (dateIn y doy).next := by
  obtain ⟨⟨hm,hm',hd⟩,hday | ⟨hfeb,hlast,hfirst,hmonth⟩⟩ := months doy h
  · obtain ⟨hlt,hsame,hnext⟩ := hday
    have hlt' : (dateIn y doy).d < daysIn (dateIn y doy).y (dateIn y doy).m := by
      change dayOf doy < daysIn _ (monthOf doy)
      by_cases hf : monthOf doy = 2
      · rw [if_pos hf] at hlt
        have hle := daysIn_february (dateIn y doy).y
        rw [hf]
        omega
      · rw [if_neg hf] at hlt
        rwa [daysIn_other _ 0 hf]
    refine ⟨⟨⟨hm,hm'⟩,hd,Nat.le_of_lt hlt'⟩,?_⟩
    rw [Date.next_day hlt']
    simp only [dateIn,hsame,hnext]
  · have hlast' : (dateIn y doy).d = daysIn (dateIn y doy).y (dateIn y doy).m := by
      change dayOf doy = daysIn _ (monthOf doy)
      rw [daysIn_other _ 0 hfeb]
      exact hlast
    refine ⟨⟨⟨hm,hm'⟩,hd,Nat.le_of_eq hlast'⟩,?_⟩
    rcases hmonth with ⟨hdec,hjan⟩ | ⟨hlt,hnext,hyear⟩
    · rw [Date.next_year hlast' hdec]
      simp only [dateIn,hjan,hfirst,hdec]
      exact Date.ext (by simp) rfl rfl
    · rw [Date.next_month hlast' hlt]
      rw [hnext] at hyear
      simp only [dateIn,hfirst,hnext,hyear]

theorem february (y : Int) : dateIn y 364 = ⟨y+1,2,28⟩ ∧ dateIn y 365 = ⟨y+1,2,29⟩ ∧ dateIn (y+1) 0 = ⟨y+1,3,1⟩ := by
  have htable : monthOf 364 = 2 ∧ dayOf 364 = 28 ∧ monthOf 365 = 2 ∧ dayOf 365 = 29 ∧ monthOf 0 = 3 ∧ dayOf 0 = 1 := by
    decide
  obtain ⟨h1,h2,h3,h4,h5,h6⟩ := htable
  simp [dateIn,h1,h2,h3,h4,h5,h6]

/-- The year goes on up to its last day, which is the 29th of February or the 28th. -/
theorem dateIn_next {y : Int} {doy : Nat} (h : doy < if leap (y+1) then 365 else 364) :
    (dateIn y doy).Valid ∧ dateIn y (doy+1) = (dateIn y doy).next := by
  by_cases hlt : doy < 364
  · exact dateIn_step hlt
  · split at h
    · rename_i hleap
      have hdoy : doy = 364 := by omega
      obtain ⟨h364,h365,_⟩ := february y
      have hdays : daysIn (y+1) 2 = 29 := if_pos hleap
      subst hdoy
      have hlt : (dateIn y 364).d < daysIn (dateIn y 364).y (dateIn y 364).m := by
        rw [h364]
        change 28 < daysIn (y+1) 2
        omega
      refine ⟨?_,?_⟩
      · rw [h364] at hlt ⊢
        exact ⟨⟨show 1 ≤ 2 by decide,show 2 ≤ 12 by decide⟩,show 1 ≤ 28 by decide,Nat.le_of_lt hlt⟩
      · rw [Date.next_day hlt,h364]
        exact h365
    · omega

theorem dateIn_last (y : Int) {doy : Nat} (h : doy = if leap (y+1) then 365 else 364) :
    (dateIn y doy).Valid ∧ dateIn (y+1) 0 = (dateIn y doy).next := by
  obtain ⟨h364,h365,hmarch⟩ := february y
  have hboth : dateIn y doy = ⟨y+1,2,daysIn (y+1) 2⟩ := by
    by_cases hleap : leap (y+1)
    · rw [h,if_pos hleap,h365,daysIn,if_pos hleap]
    · rw [h,if_neg hleap,h364,daysIn,if_neg hleap]
  rw [hboth,hmarch]
  refine ⟨⟨⟨show 1 ≤ 2 by decide,show 2 ≤ 12 by decide⟩,Date.daysIn_pos (y+1) 2,Nat.le_refl _⟩,?_⟩
  exact (Date.next_month (a := ⟨y+1,2,daysIn (y+1) 2⟩) rfl (show 2 < 12 by decide)).symm

end Days

section Epoch

theorem civil_eq (z : Int) : let doe := ((z+719468)%146097).toNat
    civil z = dateIn (yoeOf doe+(z+719468)/146097*400) (doe-before (yoeOf doe)) := by
  have hera : (if z+719468 ≥ 0 then z+719468 else z+719468-146096).tdiv 146097 = (z+719468)/146097 := by
    split
    · rename_i h
      exact Int.tdiv_eq_ediv_of_nonneg h
    · rename_i h
      have hneg := Int.neg_tdiv (-(z+719468-146096)) 146097
      have hpos : (-(z+719468-146096)).tdiv 146097 = (-(z+719468-146096))/146097 :=
        Int.tdiv_eq_ediv_of_nonneg (by omega)
      rw [Int.neg_neg,hpos] at hneg
      rw [hneg]
      omega
  have hdoe : z+719468-(z+719468)/146097*146097 = (z+719468)%146097 := by omega
  simp only [civil,hera,hdoe,dateIn]

theorem leap_period (y era : Int) : leap (y+era*400+1) ↔ leap (y+1) := by
  unfold leap
  omega

theorem civil_step (z : Int) : (civil z).Valid ∧ civil (z+1) = (civil z).next := by
  have hz := civil_eq z
  have hz' := civil_eq (z+1)
  dsimp only at hz hz'
  generalize hera : (z+719468)/146097 = era at hz
  generalize hdoe : ((z+719468)%146097).toNat = doe at hz
  have hle : doe ≤ 146096 := by omega
  obtain ⟨hy,hlow,hhigh,_⟩ := year_spec hle
  obtain ⟨_,_,hshort,hlong,hleap⟩ := yoeOf_ends _ hy
  have hlast : finish (yoeOf doe)-before (yoeOf doe) = if leap (yoeOf doe+era*400+1) then 365 else 364 := by
    simp only [leap_period]
    split
    · rename_i hl
      have hfin := hleap.mpr hl
      omega
    · rename_i hl
      have hfin : finish (yoeOf doe) ≠ before (yoeOf doe)+365 := fun he => hl (hleap.mp he)
      omega
  rw [hz,hz']
  by_cases hend : doe = finish (yoeOf doe)
  · -- the next day is the first of another year
    have hdoy : doe-before (yoeOf doe) = if leap (yoeOf doe+era*400+1) then 365 else 364 := by rw [← hlast,← hend]
    obtain ⟨hvalid,hnext⟩ := dateIn_last (yoeOf doe+era*400) hdoy
    refine ⟨hvalid,?_⟩
    rw [← hnext]
    by_cases hfinal : yoeOf doe = 399
    · have hdoe' : doe = 146096 := by
        rw [hend,hfinal]
        decide
      have hera' : (z+1+719468)/146097 = era+1 := by omega
      have hzero : ((z+1+719468)%146097).toNat = 0 := by omega
      have hstart : yoeOf 0 = 0 ∧ before 0 = 0 := by decide
      rw [hera',hzero,hstart.1,hstart.2,hfinal]
      have hyear : ((0 : Nat) : Int)+(era+1)*400 = ((399 : Nat) : Int)+era*400+1 := by omega
      rw [hyear]
    · have hfin : finish (yoeOf doe) = before (yoeOf doe+1)-1 := if_neg hfinal
      have hstart : doe+1 = before (yoeOf doe+1) := by
        have hpos : 0 < before (yoeOf doe+1) := by
          unfold before
          omega
        omega
      have hbound : before (yoeOf doe+1) ≤ 146096 := by
        unfold before
        omega
      have hera' : (z+1+719468)/146097 = era := by omega
      have hsucc : ((z+1+719468)%146097).toNat = doe+1 := by omega
      have hyoe : yoeOf (doe+1) = yoeOf doe+1 := by
        rw [hstart]
        exact (yoeOf_ends _ (by omega)).1
      rw [hera',hsucc,hyoe,hstart,Nat.sub_self]
      have hyear : ((yoeOf doe+1 : Nat) : Int)+era*400 = yoeOf doe+era*400+1 := by omega
      rw [hyear]
  · have hera' : (z+1+719468)/146097 = era := by
      have hmax : finish (yoeOf doe) ≤ 146096 := by
        unfold finish
        split
        · exact Nat.le_refl _
        · unfold before
          omega
      omega
    have hsucc : ((z+1+719468)%146097).toNat = doe+1 := by omega
    have hyoe : yoeOf (doe+1) = yoeOf doe := yoeOf_eq hy (by omega) (by omega)
    have hdoy : doe+1-before (yoeOf doe) = doe-before (yoeOf doe)+1 := by omega
    rw [hera',hsucc,hyoe,hdoy]
    exact dateIn_next (by rw [← hlast]; omega)

theorem civil_numbers : Numbers civil := ⟨fun z => (civil_step z).1,fun z => (civil_step z).2⟩

theorem civil_epoch : civil 0 = ⟨1970,1,1⟩ := by decide +kernel

/-- Every day of an `int` up to the last that the precondition allows has its date:
day 0 is the first of January 1970, and each other one follows from it. -/
theorem calDate_calendar :
    (∀ z, (calDate z).isSome ↔ -(2^31) ≤ z ∧ z ≤ 2^31-1-719468) ∧
    calDate 0 = some ⟨1970,1,1⟩ ∧
    (∀ z a, calDate z = some a → a.Valid ∧ ∀ b, calDate (z+1) = some b → b = a.next) ∧
    (∀ y z a, calDate y = some a → calDate z = some a → y = z) ∧
    ∀ f, Numbers f → f 0 = ⟨1970,1,1⟩ → ∀ z a, calDate z = some a → a = f z := by
  have hcivil : ∀ z a, calDate z = some a → a = civil z := by
    intro z a h
    rw [calDate] at h
    split at h
    · exact (Option.some.inj h).symm
    · cases h
  refine ⟨fun z => ?_,by decide +kernel,fun z a ha => ⟨?_,fun b hb => ?_⟩,fun y z a hy hz => ?_,fun f hf h0 z a ha => ?_⟩
  · rw [calDate]
    split
    · exact iff_of_true rfl (by omega)
    · exact iff_of_false Bool.false_ne_true (by omega)
  · rw [hcivil z a ha]
    exact (civil_step z).1
  · rw [hcivil z a ha,hcivil _ b hb]
    exact (civil_step z).2
  · exact civil_numbers.injective ((hcivil y a hy).symm.trans (hcivil z a hz))
  · rw [hcivil z a ha]
    exact civil_numbers.unique hf (civil_epoch.trans h0.symm) z

example : calDate 11016 = some ⟨2000,2,29⟩ ∧ calDate (2^31-719468) = none := by decide +kernel

end Epoch

end Chrono

end Logger
end FluentNet
