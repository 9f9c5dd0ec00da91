import FluentNet.Future.Future
import Mathlib.Algebra.Group.Int.Defs
import Mathlib.Algebra.Group.Nat.Defs
import Mathlib.Data.List.Chain
set_option autoImplicit false

/-!
The timed wait: a poll that calls its functor `count` times, `duration` apart. Times
are nanoseconds of the system clock, durations milliseconds, both on 64 bits.
-/

namespace FluentNet
namespace Future
open Runs

/-- `Future::wait(count, duration, f)` on a future of `value`; `count` is a `size_t`. -/
structure Wait (α : Type) where
  count : Nat
  duration : Int
  value : α
  count_lt : count < 2^64
  duration_nonneg : 0 ≤ duration
  duration_lt : duration < 2^63

/-- What the lambda has captured and changes. A `start` of 0 is the epoch. -/
structure Closure where
  start : Int
  remain : Nat
  deriving DecidableEq, Repr

/-- What the clock shows when the lambda is called, and again behind `f`, or at any
later time when `f` is not called. -/
structure Reading where
  current : Int
  after : Int
  deriving DecidableEq, Repr

def int64 (n : Int) : Int := n.bmod (2^64)

def nanoseconds (duration : Int) : Int := duration*1000000

/-- `current - start >= duration`: both sides are brought to nanoseconds. -/
def elapsed (start current duration : Int) : Bool :=
  int64 (current-start) ≥ int64 (nanoseconds duration)

structure Polled where
  closure : Closure
  called : Bool
  returned : Bool
  deriving DecidableEq, Repr

def Closure.poll (duration : Int) (s : Closure) (r : Reading) : Polled :=
  if s.start = 0 ∧ s.remain = 0 then ⟨s,false,true⟩
  else
    let start := if s.start = 0 then r.current else s.start
    if elapsed start r.current duration then
      let remain := (s.remain+(2^64-1)) % 2^64
      if remain = 0 then ⟨⟨start,remain⟩,true,true⟩
      else ⟨⟨r.after,remain⟩,true,false⟩
    else ⟨⟨start,s.remain⟩,false,false⟩

structure Timed (α : Type) where
  closure : Closure
  result : Option α
  /-- the readings around each call of `f` -/
  calls : List Reading
  /-- when the first pass came -/
  first : Option Int
  now : Int
  deriving DecidableEq, Repr

namespace Wait
variable {α : Type} (w : Wait α)

def start : Timed α := ⟨⟨0,w.count⟩,none,[],none,0⟩

def step (s : Timed α) (r : Reading) : Option (Timed α) :=
  match s.result with
  | some _ => some { s with now := r.after }
  | none =>
      let polled := s.closure.poll w.duration r
      let result := match ((Stage.poll rfl (fun _ _ => polled.returned) : Stage α α).resume w.value 0).2 with
        | .set value => some value
        | _ => none
      some {
        closure := polled.closure
        result
        calls := if polled.called then s.calls ++ [r] else s.calls
        first := some (s.first.getD r.current)
        now := r.after }

def Clocked (s : Timed α) (r : Reading) : Prop :=
  s.now ≤ r.current ∧ 0 < r.current ∧ r.current ≤ r.after ∧ r.after < 2^63

instance (s : Timed α) (r : Reading) : Decidable (Clocked s r) := inferInstanceAs (Decidable (_ ∧ _))

def since (s : Timed α) : Option Int := (s.calls.getLast?.map Reading.after).or s.first

/-- `f` is called `count` times, `duration` after the first pass and `duration` apart,
the last call or a first pass with none to make ends the wait, and then the future
has its value. -/
structure Keeps (s : Timed α) : Prop where
  count : s.calls.length ≤ w.count
  ends : s.result.isSome ↔ s.calls.length = w.count ∧ s.first.isSome
  value : ∀ v ∈ s.result, v = w.value
  first : ∀ t ∈ s.first, ∀ r ∈ s.calls.head?, t+nanoseconds w.duration ≤ r.current
  apart : s.calls.IsChain (fun r r' => r.after+nanoseconds w.duration ≤ r'.current)
  silent : ∀ r t, s.result.isSome → w.step s r = some t → t.calls = s.calls
  due : ∀ r t, s.result = none → w.count ≠ 0 → Clocked s r → w.step s r = some t →
    (t.calls = s.calls ++ [r] ↔ (since s).getD r.current+nanoseconds w.duration ≤ r.current)

structure Holds (s : Timed α) : Prop where
  remain : s.closure.remain+s.calls.length = w.count
  value : ∀ v ∈ s.result, v = w.value
  ends : s.result.isSome ↔ s.closure.remain = 0 ∧ s.first.isSome
  unset : s.first = none → s.closure.start = 0 ∧ s.calls = []
  running : ∀ t, s.first = some t → s.result = none → since s = some s.closure.start
  clock : ∀ t ∈ since s, 0 < t ∧ t ≤ s.now
  first : ∀ t ∈ s.first, ∀ r ∈ s.calls.head?, t+nanoseconds w.duration ≤ r.current
  apart : s.calls.IsChain (fun r r' => r.after+nanoseconds w.duration ≤ r'.current)

section Steps
variable {w} {s t : Timed α} {r : Reading}

theorem start_holds : w.Holds w.start := by
  refine ⟨rfl,?_,?_,fun _ => ⟨rfl,rfl⟩,?_,?_,?_,.nil⟩ <;> simp [start,since]

theorem int64_eq {n : Int} (h0 : 0 ≤ n) (h : n < 2^63) : int64 n = n :=
  Int.bmod_eq_of_le_mul_two (by omega) (by omega)

theorem elapsed_iff {start current duration : Int} (hs : 0 < start) (hle : start ≤ current)
    (hlt : current < 2^63) (hd0 : 0 ≤ duration) (hd : nanoseconds duration < 2^63) :
    elapsed start current duration = true ↔ start+nanoseconds duration ≤ current := by
  have hn : 0 ≤ nanoseconds duration := Int.mul_nonneg hd0 (by decide)
  rw [elapsed,int64_eq (by omega) (by omega),int64_eq hn hd,decide_eq_true_iff]
  omega

theorem Holds.base (hs : w.Holds s) (hres : s.result = none) (hc : Clocked s r) :
    (if s.closure.start = 0 then r.current else s.closure.start) = (since s).getD r.current ∧
      0 < (since s).getD r.current ∧ (since s).getD r.current ≤ r.current ∧
      (s.closure.start = 0 ∧ s.closure.remain = 0 ↔ s.first = none ∧ w.count = 0) := by
  obtain ⟨hnow,hpos,_,_⟩ := hc
  have hremain := hs.remain
  cases hf : s.first with
  | none =>
    obtain ⟨h0,hcalls⟩ := hs.unset hf
    have hsince : since s = none := by simp [since,hf,hcalls]
    rw [hcalls,List.length_nil] at hremain
    simp only [h0,if_true,hsince,Option.getD_none,true_and]
    omega
  | some t =>
    have hsince := hs.running t hf hres
    obtain ⟨h1,h2⟩ := hs.clock _ hsince
    have hne : s.closure.start ≠ 0 := by omega
    rw [hsince,Option.getD_some,if_neg hne]
    exact ⟨rfl,h1,by omega,by simp [hne]⟩

theorem Holds.step_cases (hs : w.Holds s) (hd : nanoseconds w.duration < 2^63) (hres : s.result = none)
    (hc : Clocked s r) :
    (s.first = none ∧ w.count = 0 ∧
      w.step s r = some ⟨s.closure,some w.value,s.calls,some r.current,r.after⟩) ∨
    (s.closure.remain ≠ 0 ∧ (since s).getD r.current+nanoseconds w.duration ≤ r.current ∧
      ∃ start, w.step s r = some ⟨⟨start,s.closure.remain-1⟩,
        if s.closure.remain = 1 then some w.value else none,s.calls ++ [r],
        some (s.first.getD r.current),r.after⟩ ∧ (s.closure.remain ≠ 1 → start = r.after)) ∨
    (s.closure.remain ≠ 0 ∧ ¬(since s).getD r.current+nanoseconds w.duration ≤ r.current ∧
      w.step s r = some ⟨⟨(since s).getD r.current,s.closure.remain⟩,none,s.calls,
        some (s.first.getD r.current),r.after⟩) := by
  obtain ⟨hstart,hpos,hle,hnothing⟩ := hs.base hres hc
  have hlt : r.current < 2^63 := Int.lt_of_le_of_lt hc.2.2.1 hc.2.2.2
  have hiff := elapsed_iff hpos hle hlt w.duration_nonneg hd
  have hremain : s.closure.remain ≤ w.count := by
    have hsum := hs.remain
    omega
  have hcount := w.count_lt
  by_cases h0 : s.closure.start = 0 ∧ s.closure.remain = 0
  · obtain ⟨hf,hcount⟩ := hnothing.mp h0
    refine .inl ⟨hf,hcount,?_⟩
    simp [Wait.step,hres,Closure.poll,if_pos h0,Stage.resume,hf]
  have hne : s.closure.remain ≠ 0 := by
    intro hr
    have hended := hs.ends
    simp only [hres,hr,true_and,Option.isSome_none,Bool.false_eq_true,false_iff] at hended
    have hsum := hs.remain
    have hf : s.first = none := by simpa using hended
    obtain ⟨hst,_⟩ := hs.unset hf
    exact h0 ⟨hst,hr⟩
  by_cases hdue : (since s).getD r.current+nanoseconds w.duration ≤ r.current
  · have hdec : (s.closure.remain+(2^64-1)) % 2^64 = s.closure.remain-1 := by omega
    refine .inr (.inl ⟨hne,hdue,if s.closure.remain = 1 then (since s).getD r.current else r.after,?_,?_⟩)
    · simp only [Wait.step,hres,Closure.poll,if_neg h0,hstart,hiff.mpr hdue,if_true,hdec]
      by_cases h1 : s.closure.remain = 1
      · simp [h1,Stage.resume]
      · have hmore : s.closure.remain-1 ≠ 0 := by omega
        simp [h1,hmore,Stage.resume]
    · intro h1
      rw [if_neg h1]
  · refine .inr (.inr ⟨hne,hdue,?_⟩)
    have hnot : elapsed ((since s).getD r.current) r.current w.duration = false :=
      Bool.eq_false_iff.mpr (mt hiff.mp hdue)
    simp only [Wait.step,hres,Closure.poll,if_neg h0,hstart,hnot,Bool.false_eq_true,if_false]
    simp [Stage.resume]

theorem since_called (calls : List Reading) (r : Reading) (closure : Closure) (result : Option α)
    (first : Option Int) (now : Int) :
    since (⟨closure,result,calls ++ [r],first,now⟩ : Timed α) = some r.after := by
  simp [since]

theorem Holds.begun (hs : w.Holds s) (hcalls : s.calls ≠ []) : ∃ t, s.first = some t :=
  Option.ne_none_iff_exists'.mp (fun hf => hcalls (hs.unset hf).2)

theorem Holds.first_called (hs : w.Holds s)
    (hdue : (since s).getD r.current+nanoseconds w.duration ≤ r.current) {q : Reading}
    (hq : q ∈ (s.calls ++ [r]).head?) :
    s.first.getD r.current+nanoseconds w.duration ≤ q.current := by
  cases hcalls : s.calls with
  | nil =>
    have hsince : since s = s.first := by simp [since,hcalls]
    rw [hsince] at hdue
    simp only [hcalls,List.nil_append,List.head?_cons,Option.mem_some] at hq
    exact hq ▸ hdue
  | cons p calls =>
    obtain ⟨t,hf⟩ := hs.begun (by simp [hcalls])
    rw [hf]
    refine hs.first t hf q ?_
    simpa [hcalls] using hq

theorem Holds.called (hs : w.Holds s) (hc : Clocked s r) (hne : s.closure.remain ≠ 0)
    (hdue : (since s).getD r.current+nanoseconds w.duration ≤ r.current) {start : Int}
    (hstart : s.closure.remain ≠ 1 → start = r.after) :
    w.Holds ⟨⟨start,s.closure.remain-1⟩,if s.closure.remain = 1 then some w.value else none,
      s.calls ++ [r],some (s.first.getD r.current),r.after⟩ := by
  have hsum := hs.remain
  refine ⟨?_,?_,?_,fun h => (by cases h),?_,?_,?_,?_⟩
  · rw [List.length_append,List.length_singleton]
    dsimp only
    omega
  · intro v hv
    dsimp only at hv
    split at hv <;> simp_all
  · by_cases h1 : s.closure.remain = 1
    · simp [h1]
    · simp only [h1,if_false,Option.isSome_none,Bool.false_eq_true,false_iff]
      omega
  · intro t _ hres
    have h1 : s.closure.remain ≠ 1 := by
      intro h1
      simp [h1] at hres
    rw [since_called,hstart h1]
  · rw [since_called]
    rintro t ht
    cases ht
    exact ⟨Int.lt_of_lt_of_le hc.2.1 hc.2.2.1,Int.le_refl _⟩
  · rintro t ht q hq
    cases ht
    exact hs.first_called hdue hq
  · refine hs.apart.append (.singleton _) (fun p hp q hq => ?_)
    simp only [List.head?_cons,Option.mem_some] at hq
    have hsince : since s = some p.after := by
      rw [since,Option.mem_def.mp hp]
      rfl
    rw [hsince] at hdue
    exact hq ▸ hdue

theorem Holds.step (hs : w.Holds s) (hd : nanoseconds w.duration < 2^63) (hc : Clocked s r)
    (h : w.step s r = some t) : w.Holds t := by
  have hnow : s.now ≤ r.after := Int.le_trans hc.1 hc.2.2.1
  by_cases hres : s.result = none
  · rcases hs.step_cases hd hres hc with ⟨hf,hcount,hstep⟩ | ⟨hne,hdue,start,hstep,hstart⟩ |
      ⟨hne,hdue,hstep⟩ <;> rw [hstep] at h <;> cases h
    · obtain ⟨h0,hcalls⟩ := hs.unset hf
      have hremain := hs.remain
      refine ⟨hremain,by simp,?_,fun h => (by cases h),fun _ _ h => (by cases h),?_,?_,hs.apart⟩
      · simp only [Option.isSome_some,and_true,true_iff]
        omega
      · simp only [since,hcalls,List.getLast?_nil,Option.map_none,Option.none_or,Option.mem_some]
        rintro t rfl
        exact ⟨hc.2.1,hc.2.2.1⟩
      · simp [hcalls]
    · exact hs.called hc hne hdue hstart
    · obtain ⟨_,hpos,hle,_⟩ := hs.base hres hc
      have hsince : since (⟨⟨(since s).getD r.current,s.closure.remain⟩,none,s.calls,
          some (s.first.getD r.current),r.after⟩ : Timed α) = some ((since s).getD r.current) := by
        cases hlast : s.calls.getLast? with
        | some q => simp [since,hlast]
        | none => simp [since,hlast]
      refine ⟨hs.remain,by simp,?_,fun h => (by cases h),fun _ _ _ => hsince,?_,?_,hs.apart⟩
      · simp [hne]
      · rw [hsince]
        rintro t ht
        cases ht
        exact ⟨hpos,Int.le_trans hle hc.2.2.1⟩
      · rintro t ht q hq
        cases ht
        obtain ⟨t,hf⟩ := hs.begun (fun hcalls => by simp [hcalls] at hq)
        rw [hf]
        exact hs.first t hf q hq
  · unfold Wait.step at h
    split at h
    · cases h
      exact ⟨hs.remain,hs.value,hs.ends,hs.unset,hs.running,
        fun t ht => ⟨(hs.clock t ht).1,Int.le_trans (hs.clock t ht).2 hnow⟩,hs.first,hs.apart⟩
    · exact absurd ‹s.result = none› hres

theorem Holds.keeps (hs : w.Holds s) (hd : nanoseconds w.duration < 2^63) : w.Keeps s := by
  have hsum := hs.remain
  refine ⟨by omega,?_,hs.value,hs.first,hs.apart,fun r t hres h => ?_,fun r t hres hcount hc h => ?_⟩
  · rw [hs.ends]
    refine and_congr_left (fun _ => ?_)
    omega
  · obtain ⟨v,hv⟩ := Option.isSome_iff_exists.mp hres
    simp only [Wait.step,hv] at h
    cases h
    rfl
  · rcases hs.step_cases hd hres hc with ⟨_,h0,_⟩ | ⟨_,hdue,_,hstep,_⟩ | ⟨_,hdue,hstep⟩
    · exact absurd h0 hcount
    · rw [hstep] at h
      cases h
      exact ⟨fun _ => hdue,fun _ => rfl⟩
    · rw [hstep] at h
      cases h
      exact ⟨fun h => by simp at h,fun h => absurd h hdue⟩

end Steps

/-- For every clock and every pattern of passes, as long as the clock can count up to
the duration. -/
theorem wait_keeps (w : Wait α) (hd : nanoseconds w.duration < 2^63) (s : Timed α)
    (hrun : Path w.step Clocked w.start s) : w.Keeps s :=
  Holds.keeps (hrun.keeps (fun _ _ _ hc hstep hs => hs.step hd hc hstep) start_holds) hd

def twice : Wait Nat := ⟨2,2,5,by decide,by decide,by decide⟩

def ticks : List Reading :=
  [⟨1000,1000⟩,⟨2000999,2000999⟩,⟨2001000,2500000⟩,⟨4400000,4400000⟩,⟨4500000,4500001⟩,⟨9000000,9000000⟩]

theorem wait_keeps_twice : ∃ s, run twice.step Clocked twice.start ticks = some s ∧
    s.calls = [⟨2001000,2500000⟩,⟨4500000,4500001⟩] ∧ s.result = some 5 ∧ twice.Keeps s := by
  have hrun : (run twice.step Clocked twice.start ticks).any (fun s =>
      s.calls = [⟨2001000,2500000⟩,⟨4500000,4500001⟩] ∧ s.result = some 5) := by decide +kernel
  obtain ⟨s,hs,hcond⟩ := (Option.any_eq_true _ _).mp hrun
  obtain ⟨hcalls,hres⟩ := of_decide_eq_true hcond
  exact ⟨s,hs,hcalls,hres,wait_keeps twice (by decide) s (run_path hs)⟩

def longest : Wait Nat := ⟨1,2^63-1,5,by decide,by decide,by decide⟩

theorem wait_wraps : ¬∀ (w : Wait Nat) (s : Timed Nat), Path w.step Clocked w.start s → w.Keeps s := by
  intro hall
  have hrun : (run longest.step Clocked longest.start [⟨1,1⟩]).any (fun s =>
      s.first = some 1 ∧ s.calls = [⟨1,1⟩]) := by decide +kernel
  obtain ⟨s,hs,hcond⟩ := (Option.any_eq_true _ _).mp hrun
  obtain ⟨hfirst,hcalls⟩ := of_decide_eq_true hcond
  have hearly := (hall longest s (run_path hs)).first 1 hfirst ⟨1,1⟩ (by rw [hcalls]; rfl)
  exact absurd hearly (by decide)

end Wait
end Future
end FluentNet
