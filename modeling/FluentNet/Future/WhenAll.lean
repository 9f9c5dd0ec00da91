import FluentNet.Future.Cancel
set_option autoImplicit false

/-!
Waiting for all of a tuple of futures, whose values may differ in type. The looper
polls the control blocks until all of them show a value at once, and locks the values.
-/

namespace FluentNet
namespace Future
open Runs

/-- `whenAll(looper, futs...)`; the futures are given by their blocks, and there is one
at least. -/
structure WhenAll where
  T : Nat → Type
  futures : List Nat
  some_future : futures ≠ []

namespace WhenAll
variable (w : WhenAll)

def ResultTuple : Type := (i : Fin w.futures.length) → w.T (w.futures.get i)

inductive Progress where
  | polling | posted | resolved
  deriving DecidableEq, Repr

structure Waiting where
  blocks : (b : Nat) → Cell (w.T b)
  /-- the second half of the binder, once the poll has locked the values -/
  res : Option w.ResultTuple
  progress : Progress
  combined : Cell w.ResultTuple

/-- `TupleHelper::forEach` with the functor of the poll, which goes on while `pass`
holds. -/
def forEach (hasValue : Nat → Bool) : List Nat → Bool → Bool
  | [],pass => pass
  | [b],pass => pass && hasValue b
  | b :: bs,pass =>
      let pass := pass && hasValue b
      if pass then forEach hasValue bs pass else pass

/-- `makeResultTuple`; nothing when some value was never set. -/
def makeResultTuple (blocks : (b : Nat) → Cell (w.T b)) : Option w.ResultTuple :=
  if h : ∀ i : Fin w.futures.length, (blocks (w.futures.get i)).value.isSome then
    some (fun i => (blocks (w.futures.get i)).value.get (h i))
  else none

def start : w.Waiting := ⟨fun _ => .init,none,.polling,.init⟩

/-- What a client of the combined future, and the looper for it, may do. -/
inductive Use where
  | attach | resume | yield | finish
  deriving DecidableEq, Repr

def Use.label {α : Type} : Use → Cell.Label α
  | .attach => .attach
  | .resume => .resume
  | .yield => .yield
  | .finish => .finish

inductive Label where
  /-- something is done on the block of an input, or in the looper for it -/
  | input (block : Nat) (l : Cell.Label (w.T block))
  /-- the looper comes to the request of the poll, and then of the `then` -/
  | pass
  | combined (use : Use)

variable {w}

def step (s : w.Waiting) : Label w → Option w.Waiting
  | .input block l =>
      ((s.blocks block).step l).map (fun cell =>
        { s with blocks := Function.update s.blocks block cell })
  | .pass =>
      match s.progress with
      | .polling =>
          if forEach (fun b => (s.blocks b).hasValue) w.futures true then
            -- lock values here
            (w.makeResultTuple s.blocks).map (fun res => { s with res := some res, progress := .posted })
          else some s
      | .posted => do
          let res ← s.res
          let combined ← s.combined.setValue res
          some { s with combined, progress := .resolved }
      | .resolved => none
  | .combined use => (s.combined.step use.label).map (fun combined => { s with combined })

def Waiting.AllHaveValue (s : w.Waiting) : Prop := ∀ b ∈ w.futures, (s.blocks b).hasValue = true

def FoundAll (pre : List (Label w)) : Prop := ∃ s, run step Any w.start pre = some s ∧ s.AllHaveValue

/-- The run that has taken the steps `ls` to `s`: the poll ends at the first pass that
finds a value in all the futures, and the next pass resolves the combined future with
these values; it never does so once an input is cancelled that had none. -/
structure Serves (ls : List (Label w)) (s : w.Waiting) : Prop where
  polls : s.progress = .polling ↔ ∀ pre, pre ++ [.pass] <+: ls → ¬FoundAll pre
  resolves : s.combined.value.isSome ↔ ∃ pre mid, FoundAll pre ∧ pre ++ .pass :: mid ++ [.pass] <+: ls
  next : s.progress ≠ .resolved → (step s .pass).isSome
  answer : ∀ result, s.combined.value = some result →
    ∀ i, (s.blocks (w.futures.get i)).value = some (result i)
  cancelled : ∀ b ∈ w.futures, (s.blocks b).state = .cancel → (s.blocks b).value = none →
    ∀ t, Path step Any s t → t.combined.value = none ∧ t.combined.started = []

/-- What the combined future waits for, and what it has locked, given the blocks. -/
structure Waiting.Holds (s : w.Waiting) : Prop where
  valued : ∀ b, (s.blocks b).Valued
  locked : s.progress ≠ .polling → ∃ res, s.res = some res ∧
    ∀ i, (s.blocks (w.futures.get i)).value = some (res i)
  fresh : s.progress ≠ .resolved → s.combined.state = .new ∧ s.combined.Idle ∧
    s.combined.value = none ∧ s.combined.started = []
  resolved : s.progress = .resolved → s.combined.value = s.res ∧ s.combined.state ≠ .new

section Polling

/-- The recursion stops at the first future without a value, and passes if there is none. -/
theorem forEach_eq_all (hasValue : Nat → Bool) (bs : List Nat) :
    forEach hasValue bs true = bs.all hasValue := by
  induction bs with
  | nil => rfl
  | cons b bs ih =>
    cases bs with
    | nil => simp [forEach]
    | cons c bs =>
      rw [forEach,List.all_cons,Bool.true_and]
      · cases hasValue b with
        | true => exact ih
        | false => rfl
      · simp

theorem pass_iff (s : w.Waiting) :
    forEach (fun b => (s.blocks b).hasValue) w.futures true = true ↔ s.AllHaveValue := by
  rw [forEach_eq_all,List.all_eq_true]
  exact Iff.rfl

theorem makeResultTuple_some {s : w.Waiting} (hs : ∀ b, (s.blocks b).Valued) (hall : s.AllHaveValue) :
    ∃ res, w.makeResultTuple s.blocks = some res ∧
      ∀ i, (s.blocks (w.futures.get i)).value = some (res i) := by
  have hsome : ∀ i : Fin w.futures.length, (s.blocks (w.futures.get i)).value.isSome :=
    fun i => (hs _).shown (hall _ (List.get_mem _ _))
  exact ⟨_,dif_pos hsome,fun i => (Option.some_get (hsome i)).symm⟩

end Polling

section Steps
variable {s t : w.Waiting}

theorem start_holds : w.start.Holds :=
  ⟨fun _ => Cell.init_valued,fun h => absurd rfl h,fun _ => ⟨rfl,⟨rfl,rfl⟩,rfl,rfl⟩,fun h => by cases h⟩

theorem Waiting.Holds.input (hs : s.Holds) {b : Nat} {l : Cell.Label (w.T b)}
    (h : step s (.input b l) = some t) : t.Holds ∧ t.progress = s.progress ∧ t.combined = s.combined ∧
      ∀ c value, (s.blocks c).value = some value → (t.blocks c).value = some value := by
  obtain ⟨cell,hc,rfl⟩ := Option.map_eq_some_iff.mp h
  have hkept : ∀ c value, (s.blocks c).value = some value →
      (Function.update s.blocks b cell c).value = some value := by
    intro c value hv
    by_cases hcb : c = b
    · subst hcb
      rw [Function.update_self]
      exact (Cell.step_value (hs.valued c).unset hc).2 value hv
    · rwa [Function.update_of_ne hcb]
  refine ⟨⟨fun c => ?_,fun hp => ?_,hs.fresh,hs.resolved⟩,rfl,rfl,hkept⟩
  · by_cases hcb : c = b
    · subst hcb
      change (Function.update s.blocks c cell c).Valued
      rw [Function.update_self]
      exact (hs.valued c).step hc
    · change (Function.update s.blocks b cell c).Valued
      rw [Function.update_of_ne hcb]
      exact hs.valued c
  · obtain ⟨res,hres,hvalues⟩ := hs.locked hp
    exact ⟨res,hres,fun i => hkept _ _ (hvalues i)⟩

theorem Waiting.Holds.pass_cases (hs : s.Holds) :
    (s.progress = .polling ∧ ¬s.AllHaveValue ∧ step s .pass = some s) ∨
    (s.progress = .polling ∧ s.AllHaveValue ∧ ∃ res,
      step s .pass = some { s with res := some res, progress := .posted } ∧
      ∀ i, (s.blocks (w.futures.get i)).value = some (res i)) ∨
    (s.progress = .posted ∧ ∃ res combined, s.res = some res ∧ combined.value = some res ∧
      combined.state ≠ .new ∧ step s .pass = some { s with combined, progress := .resolved }) ∨
    (s.progress = .resolved ∧ step s .pass = none) := by
  cases hp : s.progress with
  | polling =>
    by_cases hall : s.AllHaveValue
    · obtain ⟨res,hres,hvalues⟩ := makeResultTuple_some hs.valued hall
      refine .inr (.inl ⟨rfl,hall,res,?_,hvalues⟩)
      simp only [step,hp,(pass_iff s).mpr hall,if_true,hres,Option.map_some]
    · refine .inl ⟨rfl,hall,?_⟩
      simp only [step,hp,if_neg (mt (pass_iff s).mp hall)]
  | posted =>
    obtain ⟨res,hres,_⟩ := hs.locked (by simp [hp])
    obtain ⟨hn,_⟩ := hs.fresh (by simp [hp])
    obtain ⟨combined,hset,hv,hne⟩ : ∃ combined, s.combined.setValue res = some combined ∧
        combined.value = some res ∧ combined.state ≠ .new := by
      simp only [Cell.setValue,hn]
      split
      · exact ⟨_,rfl,rfl,by simp [Cell.postRequest]⟩
      · exact ⟨_,rfl,rfl,by simp⟩
    refine .inr (.inr (.inl ⟨rfl,res,combined,hres,hv,hne,?_⟩))
    simp only [step,hp,hres,hset,Option.bind_eq_bind,Option.bind_some]
  | resolved => exact .inr (.inr (.inr ⟨rfl,by simp only [step,hp]⟩))

theorem Use.keeps {α : Type} {c d : Cell α} {use : Use} (h : c.step use.label = some d) :
    d.value = c.value ∧ (c.state ≠ .new → d.state ≠ .new) ∧
      (c.state = .new → c.Idle → d.state = .new ∧ d.Idle ∧ d.started = c.started) := by
  cases use with
  | attach =>
    cases h
    unfold Cell.futureRoutine
    split
    · exact ⟨rfl,id,fun hn hi => ⟨hn,hi,rfl⟩⟩
    · rename_i hr
      exact ⟨rfl,fun _ => by simp [Cell.postRequest],fun hn => by simp [hr] at hn⟩
    · exact ⟨rfl,id,fun hn hi => ⟨hn,hi,rfl⟩⟩
    · exact ⟨rfl,id,fun hn hi => ⟨hn,hi,rfl⟩⟩
  | resume =>
    simp only [Use.label,Cell.step,Cell.resume] at h
    split at h
    · rename_i hq
      obtain ⟨k,_,rfl⟩ := Option.map_eq_some_iff.mp h
      exact ⟨rfl,id,fun _ hi => absurd (hi.1.symm.trans hq) (by simp)⟩
    · rename_i hq
      cases h
      exact ⟨rfl,id,fun _ hi => absurd (hi.1.symm.trans hq) (by simp)⟩
    · cases h
  | yield =>
    obtain ⟨k,hk,rfl⟩ := Option.map_eq_some_iff.mp h
    exact ⟨rfl,id,fun _ hi => absurd (hi.2.symm.trans hk) (by simp)⟩
  | finish =>
    obtain ⟨k,hk,rfl⟩ := Option.map_eq_some_iff.mp h
    exact ⟨rfl,fun _ => by simp,fun _ hi => absurd (hi.2.symm.trans hk) (by simp)⟩

theorem Waiting.Holds.combined (hs : s.Holds) {use : Use} (h : step s (.combined use) = some t) :
    t.Holds ∧ t.progress = s.progress ∧ t.blocks = s.blocks := by
  obtain ⟨cell,hc,rfl⟩ := Option.map_eq_some_iff.mp h
  obtain ⟨hvalue,hold,hnew⟩ := Use.keeps hc
  refine ⟨⟨hs.valued,hs.locked,fun hp => ?_,fun hp => ?_⟩,rfl,rfl⟩
  · obtain ⟨hn,hi,hv,hst⟩ := hs.fresh hp
    obtain ⟨hn',hi',hst'⟩ := hnew hn hi
    exact ⟨hn',hi',hvalue.trans hv,hst'.trans hst⟩
  · obtain ⟨hv,hne⟩ := hs.resolved hp
    exact ⟨hvalue.trans hv,hold hne⟩

theorem Waiting.Holds.step (hs : s.Holds) {l : Label w} (h : step s l = some t) : t.Holds := by
  cases l with
  | input b l => exact (hs.input h).1
  | combined use => exact (hs.combined h).1
  | pass =>
    rcases hs.pass_cases with ⟨_,_,hstep⟩ | ⟨hp,_,res,hstep,hvalues⟩ |
      ⟨hp,res,combined,hres,hv,hne,hstep⟩ | ⟨_,hstep⟩
    · rw [hstep] at h
      cases h
      exact hs
    · rw [hstep] at h
      cases h
      have hfresh := hs.fresh (by simp [hp])
      exact ⟨hs.valued,fun _ => ⟨res,rfl,hvalues⟩,fun _ => hfresh,fun h => by cases h⟩
    · rw [hstep] at h
      cases h
      have hlocked := hs.locked (by simp [hp])
      exact ⟨hs.valued,fun _ => hlocked,fun h => absurd rfl h,fun _ => ⟨hv.trans hres.symm,hne⟩⟩
    · rw [hstep] at h
      cases h

theorem Waiting.Holds.answer (hs : s.Holds) {result : w.ResultTuple}
    (h : s.combined.value = some result) (i : Fin w.futures.length) :
    (s.blocks (w.futures.get i)).value = some (result i) := by
  have hp : s.progress = .resolved := by
    by_contra hp
    obtain ⟨_,_,hv,_⟩ := hs.fresh hp
    rw [hv] at h
    cases h
  obtain ⟨res,hres,hvalues⟩ := hs.locked (by simp [hp])
  obtain ⟨hv,_⟩ := hs.resolved hp
  rw [hv,hres] at h
  cases h
  exact hvalues i

theorem Waiting.Holds.resolved_iff (hs : s.Holds) : s.progress = .resolved ↔ s.combined.value.isSome := by
  constructor
  · intro hp
    obtain ⟨res,hres,_⟩ := hs.locked (by simp [hp])
    rw [(hs.resolved hp).1,hres]
    rfl
  · intro hv
    by_contra hp
    rw [(hs.fresh hp).2.2.1] at hv
    cases hv

theorem Waiting.Holds.pass_blocks (hs : s.Holds) (h : WhenAll.step s .pass = some t) :
    t.blocks = s.blocks := by
  rcases hs.pass_cases with ⟨_,_,hv⟩ | ⟨_,_,_,hv,_⟩ | ⟨_,_,_,_,_,_,hv⟩ | ⟨_,hv⟩ <;>
    rw [hv] at h <;> cases h <;> rfl

def Waiting.Lost (s : w.Waiting) (b : Nat) : Prop :=
  (s.blocks b).state = .cancel ∧ (s.blocks b).value = none

theorem Waiting.Holds.lost_idle (hs : s.Holds) {b : Nat} (hlost : s.Lost b) : (s.blocks b).Idle := by
  by_contra hi
  have hsome := (hs.valued b).busy hi
  rw [hlost.2] at hsome
  cases hsome

theorem Waiting.Holds.lost (hs : s.Holds) {b : Nat} (hlost : s.Lost b) {l : Label w}
    (h : WhenAll.step s l = some t) : t.Lost b := by
  cases l with
  | input c l =>
    obtain ⟨cell,hc,rfl⟩ := Option.map_eq_some_iff.mp h
    unfold Waiting.Lost
    by_cases hcb : b = c
    · subst hcb
      obtain ⟨h1,_,h3,_⟩ := Cell.step_canceled hlost.1 (hs.lost_idle hlost) hc
      dsimp only
      rw [Function.update_self]
      exact ⟨h1,h3.trans hlost.2⟩
    · dsimp only
      rw [Function.update_of_ne hcb]
      exact hlost
  | combined use =>
    obtain ⟨_,_,hblocks⟩ := hs.combined h
    rw [Waiting.Lost,hblocks]
    exact hlost
  | pass =>
    rw [Waiting.Lost,hs.pass_blocks h]
    exact hlost

theorem Waiting.Holds.stays (hs : s.Holds) {b : Nat} (hb : b ∈ w.futures)
    (hcancel : (s.blocks b).state = .cancel) (hnone : (s.blocks b).value = none)
    (h : Path WhenAll.step Any s t) : t.combined.value = none ∧ t.combined.started = [] := by
  obtain ⟨ht,_,hvalue⟩ := h.keeps (I := fun u => u.Holds ∧ u.Lost b)
    (fun u l v _ hstep hu => ⟨hu.1.step hstep,hu.1.lost hu.2 hstep⟩) ⟨hs,hcancel,hnone⟩
  obtain ⟨i,rfl⟩ := List.get_of_mem hb
  -- a value of it would have been locked before
  have hp : t.progress = .polling := by
    by_contra hp
    obtain ⟨res,_,hvalues⟩ := ht.locked hp
    have hv := hvalues i
    rw [hvalue] at hv
    cases hv
  obtain ⟨_,_,hv,hst⟩ := ht.fresh (by simp [hp])
  exact ⟨hv,hst⟩

end Steps

section Running
variable {s t : w.Waiting} {ls : List (Label w)}

structure Passed (ls : List (Label w)) (s : w.Waiting) : Prop where
  ran : run step Any w.start ls = some s
  holds : s.Holds
  polls : s.progress = .polling ↔ ∀ pre, pre ++ [.pass] <+: ls → ¬FoundAll pre
  resolves : s.progress = .resolved ↔ ∃ pre mid, FoundAll pre ∧ pre ++ .pass :: mid ++ [.pass] <+: ls

theorem Passed.aside (hs : Passed ls s) {l : Label w} (hl : l ≠ .pass) (hstep : step s l = some t)
    (hp : t.progress = s.progress) : Passed (ls ++ [l]) t := by
  have hsame : ∀ pre : List (Label w), pre ++ [.pass] <+: ls ++ [l] ↔ pre ++ [.pass] <+: ls := by
    intro pre
    rw [List.prefix_concat_iff]
    refine or_iff_right (fun heq => ?_)
    exact hl (List.append_inj_right' heq rfl |> List.singleton_inj.mp).symm
  refine ⟨?_,hs.holds.step hstep,?_,?_⟩
  · rw [run_append,hs.ran,Option.bind_some,run_any,hstep]
    rfl
  · rw [hp,hs.polls]
    simp only [hsame]
  · rw [hp,hs.resolves]
    simp only [hsame]

theorem Passed.found (hs : Passed ls s) : FoundAll ls ↔ s.AllHaveValue := by
  constructor
  · rintro ⟨u,hu,hall⟩
    rw [hs.ran] at hu
    cases hu
    exact hall
  · exact fun hall => ⟨s,hs.ran,hall⟩

/-- The poll is over once a pass of the run found all. -/
theorem Passed.earlier (hs : Passed ls s) :
    (∃ pre mid, FoundAll pre ∧ pre ++ .pass :: mid = ls) ↔ s.progress ≠ .polling := by
  rw [ne_eq,hs.polls]
  simp only [not_forall,not_not]
  constructor
  · rintro ⟨pre,mid,hpre,rfl⟩
    exact ⟨pre,⟨mid,by simp⟩,hpre⟩
  · rintro ⟨pre,⟨mid,hmid⟩,hpre⟩
    exact ⟨pre,mid,hpre,by rw [← hmid]; simp⟩

theorem Passed.pass (hs : Passed ls s) (hstep : step s .pass = some t) : Passed (ls ++ [.pass]) t := by
  have hpasses : ∀ pre : List (Label w), pre ++ [.pass] <+: ls ++ [.pass] ↔
      pre = ls ∨ pre ++ [.pass] <+: ls := by
    intro pre
    rw [List.prefix_concat_iff,List.append_left_inj]
  have hended : ∀ pre mid : List (Label w), pre ++ .pass :: mid ++ [.pass] <+: ls ++ [.pass] ↔
      pre ++ .pass :: mid = ls ∨ pre ++ .pass :: mid ++ [.pass] <+: ls := fun pre mid => hpasses _
  -- a pass that found all is one of those before this one, or this one
  have hresolves : (∃ pre mid, FoundAll pre ∧ pre ++ .pass :: mid ++ [.pass] <+: ls ++ [.pass]) ↔
      s.progress ≠ .polling := by
    simp only [hended,and_or_left,exists_or]
    rw [hs.earlier,← hs.resolves]
    refine or_iff_left_of_imp (fun h => ?_)
    rw [h]
    decide
  have hpolls : (∀ pre, pre ++ [.pass] <+: ls ++ [.pass] → ¬FoundAll pre) ↔
      ¬s.AllHaveValue ∧ s.progress = .polling := by
    simp only [hpasses]
    rw [hs.polls,← hs.found]
    constructor
    · exact fun h => ⟨h ls (.inl rfl),fun pre hpre => h pre (.inr hpre)⟩
    · rintro ⟨h,hpre⟩ pre (rfl | hin)
      · exact h
      · exact hpre pre hin
  refine ⟨?_,hs.holds.step hstep,?_,?_⟩
  · rw [run_append,hs.ran,Option.bind_some,run_any,hstep]
    rfl
  · rw [hpolls]
    rcases hs.holds.pass_cases with ⟨hp,hall,h⟩ | ⟨hp,hall,_,h,_⟩ | ⟨hp,_,_,_,_,_,h⟩ | ⟨_,h⟩ <;>
      rw [hstep] at h <;> cases h <;> simp [*]
  · rw [hresolves]
    rcases hs.holds.pass_cases with ⟨hp,hall,h⟩ | ⟨hp,hall,_,h,_⟩ | ⟨hp,_,_,_,_,_,h⟩ | ⟨_,h⟩ <;>
      rw [hstep] at h <;> cases h <;> simp [*]

theorem passed (h : run step Any w.start ls = some s) : Passed ls s := by
  refine run_induct (I := Passed) (fun ls t l u _ hstep ht => ?_) (show Passed [] w.start from ⟨rfl,start_holds,?_,?_⟩) h
  · cases l with
    | input b l => exact ht.aside (by simp) hstep (ht.holds.input hstep).2.1
    | combined use => exact ht.aside (by simp) hstep (ht.holds.combined hstep).2.1
    | pass => exact ht.pass hstep
  · simp [start]
  · simp [start]

/-- For every tuple of futures and every order in which they resolve, are consumed or
are cancelled. -/
theorem whenAll_serves (w : WhenAll) (ls : List (Label w)) (s : w.Waiting)
    (hrun : run step Any w.start ls = some s) : Serves ls s := by
  have hs := passed hrun
  refine ⟨hs.polls,?_,fun hp => ?_,fun result h => hs.holds.answer h,
    fun b hb hcancel hnone t ht => hs.holds.stays hb hcancel hnone ht⟩
  · rw [← hs.holds.resolved_iff]
    exact hs.resolves
  · rcases hs.holds.pass_cases with ⟨_,_,h⟩ | ⟨_,_,_,h,_⟩ | ⟨_,_,_,_,_,_,h⟩ | ⟨hp',_⟩
    · exact h ▸ rfl
    · exact h ▸ rfl
    · exact h ▸ rfl
    · exact absurd hp' hp

def numberAndFlag : WhenAll := ⟨fun b => if b = 0 then Nat else Bool,[0,1],by simp⟩

def arriving : List (Label numberAndFlag) :=
  [.pass,.input 0 (.setValue (7 : Nat)),.pass,.input 0 .attach,.input 1 (.setValue true),.pass,
    .input 1 .cancel,.combined .attach,.pass,.combined .resume]

theorem whenAll_serves_numberAndFlag : ∃ s, run step Any numberAndFlag.start arriving = some s ∧
    s.progress = .resolved ∧ s.combined.started = [0] ∧ Serves arriving s := by
  have hrun : (run step Any numberAndFlag.start arriving).any
      (fun s => s.progress = .resolved ∧ s.combined.started = [0]) := by decide +kernel
  obtain ⟨s,hs,hcond⟩ := (Option.any_eq_true _ _).mp hrun
  obtain ⟨hp,hst⟩ := of_decide_eq_true hcond
  exact ⟨s,hs,hp,hst,whenAll_serves numberAndFlag arriving s hs⟩

/-- In the pass that finds a value in all the futures the combined future gets none. -/
theorem whenAll_late : ¬∀ (w : WhenAll) (s t : w.Waiting), Path step Any w.start s →
    s.AllHaveValue → step s .pass = some t → t.combined.value.isSome := by
  intro hall
  have hrun : (run step Any numberAndFlag.start [.input 0 (.setValue (7 : Nat)),.input 1 (.setValue true)]).any
      (fun s => (∀ b ∈ numberAndFlag.futures, (s.blocks b).hasValue = true) ∧
        (step s .pass).any (fun t => t.combined.value.isNone)) := by decide +kernel
  obtain ⟨s,hs,hcond⟩ := (Option.any_eq_true _ _).mp hrun
  obtain ⟨hvalues,hpass⟩ := of_decide_eq_true hcond
  obtain ⟨t,ht,hnone⟩ := (Option.any_eq_true _ _).mp hpass
  have hsome := hall numberAndFlag s t (run_path hs) hvalues ht
  rw [Option.isNone_iff_eq_none.mp hnone] at hsome
  cases hsome

end Running

end WhenAll
end Future
end FluentNet
