import FluentNet.Future.Future
set_option autoImplicit false

/-!
One control block, as its promise, the futures that share it and the looper use it.
The continuation is any code: it may yield as often as it likes, and may itself call
what others may call.
-/

namespace FluentNet
namespace Future
open Runs

/-- A request of the block that is in the looper's queue: not resumed yet, or
left by the continuation in `yield()`. -/
inductive Task where
  | posted
  | yielded (continuation : Nat)
  deriving DecidableEq, Repr

/-- Continuations are numbered in the order in which they were passed to `then`,
`poll` or `cancelIf`. -/
structure Cell (α : Type) where
  state : State
  value : Option α
  /-- the continuation that `_then` holds -/
  continuation : Option Nat
  /-- the states of the futures that were returned for the continuations -/
  returned : List State
  /-- the requests of this block that wait in the looper -/
  queue : List Task
  /-- the continuation that the looper is running -/
  active : Option Nat
  started : List Nat
  deriving DecidableEq, Repr

namespace Cell
variable {α : Type}

def init : Cell α := ⟨.new,none,none,[],[],none,[]⟩

def postRequest (s : Cell α) : Cell α :=
  { s with state := .posted, queue := s.queue ++ [.posted] }

def setValue (s : Cell α) (value : α) : Option (Cell α) :=
  match s.state with
  | .new =>
      let s' := { s with value := some value, state := .ready }
      some (if s.continuation.isSome then s'.postRequest else s')
  | .cancel => some s
  | _ => none

def cancel (s : Cell α) : Cell α := { s with state := .cancel }

def futureRoutine (s : Cell α) : Cell α :=
  match s.state with
  | .new => { s with continuation := some s.returned.length, returned := s.returned ++ [.new] }
  | .ready =>
      postRequest { s with
        continuation := some s.returned.length
        returned := s.returned ++ [.new] }
  | .cancel => { s with returned := s.returned ++ [.cancel] }
  | _ => { s with returned := s.returned ++ [.new] }

inductive Label (α : Type) where
  | setValue (value : α)
  | cancel
  | attach
  /-- the looper comes to the request at the front -/
  | resume
  /-- the continuation yields, and the looper queues the request again -/
  | yield
  /-- the continuation returns, and the request ends -/
  | finish
  deriving DecidableEq, Repr

def resume (s : Cell α) : Option (Cell α) :=
  match s.active,s.queue with
  | none,.posted :: queue =>
      s.continuation.map (fun k => { s with queue, active := some k, started := s.started ++ [k] })
  | none,.yielded k :: queue => some { s with queue, active := some k }
  | _,_ => none

/-- A `setValue` that throws changes nothing. -/
def step (s : Cell α) : Label α → Option (Cell α)
  | .setValue value => some ((s.setValue value).getD s)
  | .cancel => some s.cancel
  | .attach => some s.futureRoutine
  | .resume => s.resume
  | .yield => s.active.map (fun k => { s with active := none, queue := s.queue ++ [.yielded k] })
  | .finish => s.active.map (fun _ => { s with active := none, state := .done })

def Idle (s : Cell α) : Prop := s.queue = [] ∧ s.active = none

instance (s : Cell α) : Decidable s.Idle := inferInstanceAs (Decidable (_ ∧ _))

/-- Whatever is done next, the block stays cancelled, and neither its value nor
what has been started of it changes. -/
def Absorbed (s : Cell α) : Prop :=
  ∀ u, Path step Any s u → u.state = .cancel ∧ u.value = s.value ∧ u.started = s.started ∧
    ∀ value, u.setValue value = some u

structure Single (s : Cell α) : Prop where
  unset : s.state = .new ∨ s.state = .ready → s.Idle
  one : s.Idle ∨ (s.queue = [] ∧ s.active.isSome) ∨
    (s.active = none ∧ ∃ t, s.queue = [t] ∧ (t = .posted → s.continuation.isSome))

section Steps
variable {s t : Cell α}

theorem init_single : (init : Cell α).Single := ⟨fun _ => ⟨rfl,rfl⟩,.inl ⟨rfl,rfl⟩⟩

theorem Single.postRequest (hs : s.Idle) (hc : s.continuation.isSome) : s.postRequest.Single := by
  refine ⟨fun h => ?_,.inr (.inr ⟨hs.2,.posted,?_,fun _ => hc⟩)⟩
  · rcases h with h | h <;> cases h
  · rw [Cell.postRequest,hs.1]
    rfl

theorem Single.frame (hs : s.Single) (hq : t.queue = s.queue) (ha : t.active = s.active)
    (hc : s.continuation.isSome → t.continuation.isSome)
    (hu : t.state = .new ∨ t.state = .ready → s.state = .new ∨ s.state = .ready) : t.Single := by
  refine ⟨fun h => ?_,?_⟩
  · rw [Idle,hq,ha]
    exact hs.unset (hu h)
  · rw [Idle,hq,ha]
    rcases hs.one with h | h | ⟨h,r,hr,hp⟩
    · exact .inl h
    · exact .inr (.inl h)
    · exact .inr (.inr ⟨h,r,hr,fun hp' => hc (hp hp')⟩)

theorem Single.setValue (hs : s.Single) {value : α} (h : s.setValue value = some t) : t.Single := by
  simp only [Cell.setValue] at h
  split at h
  · rename_i hn
    have hidle : s.Idle := hs.unset (.inl hn)
    split at h <;> cases h
    · rename_i hc
      exact Single.postRequest (s := { s with value := some value, state := .ready }) hidle hc
    · exact hs.frame rfl rfl id (fun _ => .inl hn)
  · cases h
    exact hs
  · cases h

theorem Single.futureRoutine (hs : s.Single) : s.futureRoutine.Single := by
  unfold Cell.futureRoutine
  split
  · exact hs.frame rfl rfl (fun _ => rfl) id
  · rename_i hr
    exact Single.postRequest (s := { s with
      continuation := some s.returned.length, returned := s.returned ++ [.new] })
      (hs.unset (.inr hr)) rfl
  · exact hs.frame rfl rfl id id
  · exact hs.frame rfl rfl id id

theorem Single.resume (hs : s.Single) (h : s.resume = some t) : t.Single := by
  have hbusy : ∀ u : Cell α, u.state = s.state → u.queue = [] → u.active.isSome → ¬s.Idle → u.Single := by
    intro u hstate hq ha hn
    exact ⟨fun h => absurd (hs.unset (hstate ▸ h)) hn,.inr (.inl ⟨hq,ha⟩)⟩
  have hnot : ∀ r queue, s.queue = r :: queue → ¬s.Idle ∧ queue = [] := by
    intro r queue hr
    refine ⟨fun hi => by simp [Idle,hr] at hi,?_⟩
    rcases hs.one with hi | ⟨hi,_⟩ | ⟨_,t,ht,_⟩
    · simp [Idle,hr] at hi
    · simp [hr] at hi
    · rw [hr] at ht
      cases ht
      rfl
  simp only [Cell.resume] at h
  split at h
  · rename_i queue _ hr
    obtain ⟨hi,rfl⟩ := hnot _ _ hr
    obtain ⟨k,_,rfl⟩ := Option.map_eq_some_iff.mp h
    exact hbusy _ rfl rfl rfl hi
  · rename_i k queue _ hr
    obtain ⟨hi,rfl⟩ := hnot _ _ hr
    cases h
    exact hbusy _ rfl rfl rfl hi
  · cases h

theorem Single.step (hs : s.Single) {l : Label α} (h : s.step l = some t) : t.Single := by
  have hrunning : ∀ k, s.active = some k → s.queue = [] ∧ ¬s.Idle := by
    intro k hk
    refine ⟨?_,fun hi => by simp [Idle,hk] at hi⟩
    rcases hs.one with hi | ⟨hi,_⟩ | ⟨ha,_⟩
    · exact hi.1
    · exact hi
    · simp [ha] at hk
  cases l with
  | setValue value =>
    cases h
    cases hv : s.setValue value with
    | none => exact hs
    | some u => exact hs.setValue hv
  | cancel =>
    cases h
    exact hs.frame rfl rfl id (by simp [Cell.cancel])
  | attach =>
    cases h
    exact hs.futureRoutine
  | resume => exact hs.resume h
  | yield =>
    obtain ⟨k,hk,rfl⟩ := Option.map_eq_some_iff.mp h
    obtain ⟨hq,hi⟩ := hrunning k hk
    refine ⟨fun h => absurd (hs.unset h) hi,.inr (.inr ⟨rfl,.yielded k,?_,fun h => by cases h⟩)⟩
    simp [hq]
  | finish =>
    obtain ⟨k,hk,rfl⟩ := Option.map_eq_some_iff.mp h
    obtain ⟨hq,_⟩ := hrunning k hk
    refine ⟨fun h => ?_,.inl ⟨hq,rfl⟩⟩
    rcases h with h | h <;> cases h

end Steps

section Values
variable {c d : Cell α}

theorem step_value (hc : c.state = .new → c.value = none) {l : Label α} (h : c.step l = some d) :
    (d.state = .new → d.value = none) ∧ ∀ value, c.value = some value → d.value = some value := by
  have hsame : ∀ e : Cell α, e.value = c.value → (e.state = .new → c.state = .new) →
      (e.state = .new → e.value = none) ∧ ∀ value, c.value = some value → e.value = some value := by
    intro e hv hn
    rw [hv]
    exact ⟨fun he => hc (hn he),fun _ h => h⟩
  cases l with
  | setValue value =>
    cases h
    unfold Cell.setValue
    split
    · rename_i hn
      have hno : ∀ w, c.value = some w → False := fun w hw => by simp [hc hn] at hw
      refine ⟨fun he => ?_,fun w hw => (hno w hw).elim⟩
      dsimp only at he
      split at he <;> cases he
    · exact hsame c rfl id
    · exact hsame c rfl id
  | cancel =>
    cases h
    exact hsame _ rfl (by simp [Cell.cancel])
  | attach =>
    cases h
    unfold Cell.futureRoutine
    split
    · exact hsame _ rfl id
    · exact hsame _ rfl (by simp [Cell.postRequest])
    · exact hsame _ rfl id
    · exact hsame _ rfl id
  | resume =>
    simp only [Cell.step,Cell.resume] at h
    split at h
    · obtain ⟨k,_,rfl⟩ := Option.map_eq_some_iff.mp h
      exact hsame _ rfl id
    · cases h
      exact hsame _ rfl id
    · cases h
  | yield =>
    obtain ⟨k,_,rfl⟩ := Option.map_eq_some_iff.mp h
    exact hsame _ rfl id
  | finish =>
    obtain ⟨k,_,rfl⟩ := Option.map_eq_some_iff.mp h
    exact hsame _ rfl (by simp)

/-- The block has been resolved, and neither cancelled nor consumed since. -/
def hasValue (c : Cell α) : Bool :=
  c.state = .ready || c.state = .posted || c.state = .done

structure Valued (c : Cell α) : Prop where
  unset : c.state = .new → c.value = none
  shown : c.hasValue = true → c.value.isSome
  busy : ¬c.Idle → c.value.isSome

theorem init_valued : (init : Cell α).Valued := by
  refine ⟨fun _ => rfl,fun h => ?_,fun h => absurd ⟨rfl,rfl⟩ h⟩
  cases h

theorem Valued.step (hc : c.Valued) {l : Label α} (h : c.step l = some d) : d.Valued := by
  -- the value is there still, and e shows one or is busy only where c was
  have hkeep : ∀ e : Cell α, e.value = c.value → (e.state = .new → c.state = .new) →
      (e.hasValue = true → c.hasValue = true ∨ ¬c.Idle) → (c.Idle → e.Idle ∨ c.hasValue = true) →
      e.Valued := by
    intro e hv hn hshow hbusy
    have hsome : c.hasValue = true ∨ ¬c.Idle → e.value.isSome := by
      intro h
      rw [hv]
      exact h.elim hc.shown hc.busy
    refine ⟨fun he => hv.trans (hc.unset (hn he)),fun he => hsome (hshow he),fun he => hsome ?_⟩
    by_cases hi : c.Idle
    · exact (hbusy hi).elim (fun h => absurd h he) .inl
    · exact .inr hi
  cases l with
  | setValue value =>
    cases h
    unfold Cell.setValue
    split
    · have hset : ∀ e : Cell α, e.value = some value → e.state ≠ .new → e.Valued := fun e he hne =>
        ⟨fun h => absurd h hne,fun _ => he ▸ rfl,fun _ => he ▸ rfl⟩
      dsimp only
      split
      · exact hset _ rfl (by simp [Cell.postRequest])
      · exact hset _ rfl (by simp)
    · exact hc
    · exact hc
  | cancel =>
    cases h
    exact hkeep _ rfl (by simp [Cell.cancel]) (by simp [hasValue,Cell.cancel]) .inl
  | attach =>
    cases h
    unfold Cell.futureRoutine
    split
    · exact hkeep _ rfl id .inl .inl
    · rename_i hr
      have hshown : c.hasValue = true := by simp [hasValue,hr]
      exact hkeep _ rfl (by simp [Cell.postRequest]) (fun _ => .inl hshown) (fun _ => .inr hshown)
    · exact hkeep _ rfl id .inl .inl
    · exact hkeep _ rfl id .inl .inl
  | resume =>
    have hwork : ∀ r queue, c.queue = r :: queue → ¬c.Idle := by
      intro r queue hq hi
      rw [hi.1] at hq
      cases hq
    simp only [Cell.step,Cell.resume] at h
    split at h
    · rename_i hq
      obtain ⟨k,_,rfl⟩ := Option.map_eq_some_iff.mp h
      exact hkeep _ rfl id .inl (fun hi => absurd hi (hwork _ _ hq))
    · rename_i hq
      cases h
      exact hkeep _ rfl id .inl (fun hi => absurd hi (hwork _ _ hq))
    · cases h
  | yield =>
    obtain ⟨k,hk,rfl⟩ := Option.map_eq_some_iff.mp h
    exact hkeep _ rfl id .inl (fun hi => absurd (hi.2.symm.trans hk) (by simp))
  | finish =>
    obtain ⟨k,hk,rfl⟩ := Option.map_eq_some_iff.mp h
    have hbusy : ¬c.Idle := fun hi => absurd (hi.2.symm.trans hk) (by simp)
    exact hkeep _ rfl (by simp) (fun _ => .inr hbusy) (fun hi => absurd hi hbusy)

end Values

section Absorbing
variable {s t : Cell α}

theorem step_canceled (hs : s.state = .cancel) (hi : s.Idle) {l : Label α} (h : s.step l = some t) :
    t.state = .cancel ∧ t.Idle ∧ t.value = s.value ∧ t.started = s.started := by
  obtain ⟨hq,ha⟩ := hi
  cases l with
  | setValue value =>
    have hv : s.setValue value = some s := by simp [Cell.setValue,hs]
    rw [Cell.step,hv] at h
    cases h
    exact ⟨hs,⟨hq,ha⟩,rfl,rfl⟩
  | cancel =>
    cases h
    exact ⟨rfl,⟨hq,ha⟩,rfl,rfl⟩
  | attach =>
    have hf : s.futureRoutine = { s with returned := s.returned ++ [.cancel] } := by
      simp [Cell.futureRoutine,hs]
    rw [Cell.step,hf] at h
    cases h
    exact ⟨hs,⟨hq,ha⟩,rfl,rfl⟩
  | resume => simp [Cell.step,Cell.resume,hq] at h
  | yield => simp [Cell.step,ha] at h
  | finish => simp [Cell.step,ha] at h

theorem Idle.absorbed (hi : s.Idle) : s.cancel.Absorbed := by
  intro u hu
  obtain ⟨hstate,_,hvalue,hstarted⟩ := hu.keeps
    (I := fun u => u.state = .cancel ∧ u.Idle ∧ u.value = s.value ∧ u.started = s.started)
    (fun _ _ _ _ hstep h => by
      obtain ⟨h1,h2,h3,h4⟩ := step_canceled h.1 h.2.1 hstep
      exact ⟨h1,h2,h3.trans h.2.2.1,h4.trans h.2.2.2⟩)
    ⟨rfl,hi,rfl,rfl⟩
  exact ⟨hstate,hvalue,hstarted,fun value => by simp [Cell.setValue,hstate]⟩

theorem Single.escapes (hs : s.Single) (hi : ¬s.Idle) : ¬s.cancel.Absorbed := by
  intro habs
  have hfinish : ∀ u k, Path Cell.step Any s.cancel u → u.active = some k → False := by
    intro u k hu hk
    have hdone : u.step .finish = some { u with active := none, state := .done } := by
      simp [Cell.step,hk]
    exact absurd (habs _ (hu.next trivial hdone)).1 (by simp)
  rcases hs.one with h | ⟨_,ha⟩ | ⟨ha,r,hr,hc⟩
  · exact hi h
  · obtain ⟨k,hk⟩ := Option.isSome_iff_exists.mp ha
    exact hfinish s.cancel k .refl hk
  · cases r with
    | posted =>
      obtain ⟨k,hk⟩ := Option.isSome_iff_exists.mp (hc rfl)
      have hresume : s.cancel.step .resume = some { s.cancel with
          queue := [], active := some k, started := s.started ++ [k] } := by
        simp [Cell.step,Cell.resume,Cell.cancel,ha,hr,hk]
      exact hfinish _ k (Path.next .refl trivial hresume) rfl
    | yielded k =>
      have hresume : s.cancel.step .resume = some { s.cancel with queue := [], active := some k } := by
        simp [Cell.step,Cell.resume,Cell.cancel,ha,hr]
      exact hfinish _ k (Path.next .refl trivial hresume) rfl

end Absorbing

/-- A cancel is final just when no request of the block is queued or running. -/
theorem cancel_absorbed_iff_idle (s : Cell α) (hrun : Path step Any init s) :
    s.cancel.Absorbed ↔ s.Idle := by
  have hs : s.Single := hrun.keeps (fun _ _ _ _ hstep hi => hi.step hstep) init_single
  refine ⟨fun habs => ?_,Idle.absorbed⟩
  by_contra hi
  exact hs.escapes hi habs

theorem cancel_absorbed_iff_idle_ready :
    (Cell.mk .ready (some 7) none [] [] none [] : Cell Nat).cancel.Absorbed ↔
      (Cell.mk .ready (some 7) none [] [] none [] : Cell Nat).Idle :=
  cancel_absorbed_iff_idle _ (run_path (show run step Any init [.setValue 7] = some _ from rfl))

/-- The request is posted, and the continuation is started after the cancel. -/
theorem cancel_escaped : ¬∀ s : Cell Nat, Path step Any init s → s.cancel.Absorbed := by
  intro hall
  have hrun : Path step Any init
      (Cell.mk .posted (some 7) (some 0) [.new] [.posted] none [] : Cell Nat) :=
    run_path (show run step Any init [.attach,.setValue 7] = some _ from rfl)
  have hs : Single _ := hrun.keeps (fun _ _ _ _ hstep hi => hi.step hstep) init_single
  exact hs.escapes (by decide) (hall _ hrun)

end Cell
end Future
end FluentNet
