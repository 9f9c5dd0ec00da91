import FluentNet.Throws
import Mathlib.Algebra.Group.Int.Defs
import Mathlib.Algebra.Group.Nat.Defs
set_option autoImplicit false

/-!
How `co::connect` backs off: the timeouts that it hands to `co::poll` between its
calls of `::connect`.
-/

namespace FluentNet
namespace Posix

structure Tried where
  /-- `addEvent` has a slot for it -/
  added : Bool
  /-- `SO_ERROR`, unless `getsockopt` fails -/
  soerr : Option Nat
  /-- `getpeername` finds a peer -/
  peer : Bool
  deriving DecidableEq, Repr

inductive Judged where
  | retry
  | returns (ret : Int) (errno : Option Nat)
  deriving DecidableEq, Repr

def Tried.judge (t : Tried) : Judged :=
  if t.added then
    match t.soerr with
    | none => .returns (-1) (some EPERM)
    | some soerr =>
        if soerr ∈ [0,EINTR,EINPROGRESS,EALREADY,EISCONN] then
          if t.peer then .returns 0 none else .retry
        else if soerr ∈ [EAGAIN,EADDRINUSE,EADDRNOTAVAIL,ENETUNREACH,ECONNREFUSED] then .retry
        else .returns (-1) (some soerr)
  else .returns (-1) (some EPERM)

/-- `v << n` on an `int` of two's complement; undefined from its width on. -/
def shiftLeft (v : BitVec 32) (n : Nat) : Option (BitVec 32) :=
  if n < 32 then some (v <<< n) else none

/-- `if(retries++ > 2) co::poll(nullptr, 0, 1024 << (retries - 3))`: the timeout, if
there is a poll at all. -/
def backOff (retries : Nat) : Option (Option Int) :=
  if retries > 2 then
    let retries := retries+1
    (shiftLeft 1024 (retries-3)).map (fun timeout => some timeout.toInt)
  else some none

inductive Ended where
  | returned (ret : Int) (errno : Option Nat)
  | undefined
  deriving DecidableEq, Repr

/-- The loop of `connect`: the timeout before each `::connect`, and how it ends. -/
def connect (maxRetries : Nat) (tried : Nat → Tried) (retries : Nat) : List (Option Int) × Ended :=
  if retries < maxRetries then
    match backOff retries with
    | none => ([],.undefined)
    | some waited =>
        match (tried retries).judge with
        | .retry =>
            let rest := connect maxRetries tried (retries+1)
            (waited :: rest.1,rest.2)
        | .returns ret errno => ([waited],.returned ret errno)
  else ([],.returned (-1) (some ETIMEDOUT))
termination_by maxRetries-retries

/-- 0 - 0 - 0 - 1s - 2s - 4s - 8s - ... -/
def documented (k : Nat) : Option Int := if k < 3 then none else some (1024*2^(k-3))

structure Documented (maxRetries : Nat) (run : List (Option Int) × Ended) : Prop where
  timeouts : run.1 = (List.range maxRetries).map documented
  calls : run.1.length = maxRetries
  timedOut : run.2 = .returned (-1) (some ETIMEDOUT)

section Retrying
variable {maxRetries : Nat} {tried : Nat → Tried}

theorem connect_done {retries : Nat} (h : maxRetries ≤ retries) :
    connect maxRetries tried retries = ([],.returned (-1) (some ETIMEDOUT)) := by
  rw [connect,if_neg (Nat.not_lt.mpr h)]

theorem connect_retry {retries : Nat} {waited : Option Int} (h : retries < maxRetries)
    (hw : backOff retries = some waited) (hr : (tried retries).judge = .retry) :
    connect maxRetries tried retries = (waited :: (connect maxRetries tried (retries+1)).1,
      (connect maxRetries tried (retries+1)).2) := by
  rw [connect,if_pos h,hw,hr]

theorem backOff_some {retries : Nat} (h : retries < 34) : ∃ waited, backOff retries = some waited := by
  have hwidth : retries+1-3 < 32 := by omega
  unfold backOff
  split
  · exact ⟨_,by simp only [shiftLeft,if_pos hwidth,Option.map_some]; rfl⟩
  · exact ⟨none,rfl⟩

theorem connect_retries (hmax : maxRetries ≤ 34) (hretry : ∀ k < maxRetries, (tried k).judge = .retry)
    {n retries : Nat} (hn : retries+n = maxRetries) :
    ∃ waited, connect maxRetries tried retries = (waited,.returned (-1) (some ETIMEDOUT)) ∧
      waited.map some = (List.range' retries n).map backOff := by
  induction n generalizing retries with
  | zero => exact ⟨[],connect_done (by omega),rfl⟩
  | succ n ih =>
    obtain ⟨waited,hw⟩ := backOff_some (show retries < 34 by omega)
    obtain ⟨rest,hrest,hmap⟩ := ih (show retries+1+n = maxRetries by omega)
    refine ⟨waited :: rest,?_,?_⟩
    · rw [connect_retry (by omega) hw (hretry retries (by omega)),hrest]
    · rw [List.map_cons,hmap,List.range'_succ,List.map_cons,hw]

theorem documented_of_few (hmax : maxRetries ≤ 3) (hretry : ∀ k < maxRetries, (tried k).judge = .retry) :
    Documented maxRetries (connect maxRetries tried 0) := by
  obtain ⟨waited,heq,hmap⟩ := connect_retries (by omega) hretry (n := maxRetries) (Nat.zero_add _)
  have hlen : waited.length = maxRetries := by
    have hlen := congrArg List.length hmap
    simpa using hlen
  rw [heq]
  refine ⟨?_,hlen,rfl⟩
  refine (List.map_inj_right (fun _ _ h => Option.some.inj h)).mp ?_
  rw [hmap,List.map_map,List.range_eq_range']
  refine List.map_congr_left (fun k hk => ?_)
  have hlt : k < 3 := by
    have hk := (List.mem_range'_1.mp hk).2
    omega
  simp [backOff,documented,hlt,Nat.not_lt.mpr (Nat.lt_succ_iff.mp hlt)]

theorem fourth_waits (hmax : 3 < maxRetries) (hretry : ∀ k < maxRetries, (tried k).judge = .retry) :
    (connect maxRetries tried 0).1[3]? = some (some 2048) := by
  have hfirst : ∀ k, k ≤ 2 → backOff k = some none := by
    intro k hk
    rw [backOff,if_neg (by omega)]
  have hfourth : backOff 3 = some (some 2048) := by decide
  rw [connect_retry (by omega) (hfirst 0 (by omega)) (hretry 0 (by omega)),
    connect_retry (by omega) (hfirst 1 (by omega)) (hretry 1 (by omega)),
    connect_retry (by omega) (hfirst 2 (by omega)) (hretry 2 (by omega)),
    connect_retry (by omega) hfourth (hretry 3 (by omega))]
  rfl

/-- The waits are the documented ones just when no try has to wait. The number of
tries is right as long as the shift is defined. -/
theorem connect_documented_iff (maxRetries : Nat) (tried : Nat → Tried)
    (hretry : ∀ k < maxRetries, (tried k).judge = .retry) :
    (Documented maxRetries (connect maxRetries tried 0) ↔ maxRetries ≤ 3) ∧
    (maxRetries ≤ 34 → (connect maxRetries tried 0).1.length = maxRetries ∧
      (connect maxRetries tried 0).2 = .returned (-1) (some ETIMEDOUT)) := by
  refine ⟨⟨fun hd => ?_,fun hmax => documented_of_few hmax hretry⟩,fun hmax => ?_⟩
  · refine Nat.not_lt.mp (fun hmax => ?_)
    have hfourth := fourth_waits hmax hretry
    have hdocumented : documented 3 = some 1024 := by decide
    rw [hd.timeouts,List.getElem?_map,List.getElem?_range hmax,Option.map_some,hdocumented] at hfourth
    exact absurd hfourth (by decide)
  · obtain ⟨waited,heq,hmap⟩ := connect_retries hmax hretry (n := maxRetries) (Nat.zero_add _)
    have hlen := congrArg List.length hmap
    rw [heq]
    exact ⟨by simpa using hlen,rfl⟩

def refused : Nat → Tried := fun _ => ⟨true,some ECONNREFUSED,false⟩

theorem refused_retry (k : Nat) : (refused k).judge = .retry := by
  rw [refused]
  decide

theorem connect_documented_iff_refused :
    (Documented 8 (connect 8 refused 0) ↔ 8 ≤ 3) ∧ (connect 8 refused 0).1.length = 8 := by
  obtain ⟨hiff,hcalls⟩ := connect_documented_iff 8 refused (fun k _ => refused_retry k)
  exact ⟨hiff,(hcalls (by decide)).1⟩

theorem connect_waits_twice : ¬∀ (maxRetries : Nat) (tried : Nat → Tried),
    (∀ k < maxRetries, (tried k).judge = .retry) → Documented maxRetries (connect maxRetries tried 0) := by
  intro hall
  have hretry : ∀ k < 4, (refused k).judge = .retry := fun k _ => refused_retry k
  have htimeouts := (hall 4 refused hretry).timeouts
  have hfourth := fourth_waits (by decide) hretry
  rw [htimeouts] at hfourth
  exact absurd hfourth (by decide)

end Retrying

end Posix
end FluentNet
