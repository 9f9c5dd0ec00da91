import FluentNet.Future.Chain
import FluentNet.Future.Cancel
import FluentNet.Future.Forwarding
import FluentNet.Library.Refinement
set_option autoImplicit false

/-!
Each block of a chain is a cell, and a functor that leaves its value for others makes of
it what its stage does.
-/

namespace FluentNet
namespace Future
open Runs

namespace Machine
variable {c : Chain} {s t : Machine c} {k j : Nat}

/-- The requests of a block, in order; whether the callback of each has still to begin. -/
def requests (s : Machine c) (k : Nat) : List Bool :=
  (s.queue.filter (fun co => co.block = k)).map (fun co => co.calls = 0)

structure Shows (s : Machine c) (k : Nat) (cell : Cell (c.T k)) : Prop where
  state : cell.state = (s.blocks k).state
  value : cell.value = (s.blocks k).value
  continuation : cell.continuation.isSome = (s.blocks k).continuation.isSome
  active : cell.active = none
  queue : cell.queue.map (fun r => decide (r = .posted)) = s.requests k

structure Ordered (s : Machine c) : Prop where
  bare : ∀ j, s.attached ≤ j → (s.blocks j).continuation = none
  fresh : ∀ j, s.attached < j → s.blocks j = .init
  queued : ∀ co ∈ s.queue, co.block < s.attached

theorem init_ordered (c : Chain) : (init c).Ordered := ⟨fun _ _ => rfl,fun _ _ => rfl,by simp [init]⟩

theorem init_shows (c : Chain) (k : Nat) : (init c).Shows k .init := ⟨rfl,rfl,rfl,rfl,rfl⟩

section Shows
variable {cell : Cell (c.T k)}

theorem Shows.congr (hs : s.Shows k cell) (hb : t.blocks k = s.blocks k) (hq : t.requests k = s.requests k) :
    t.Shows k cell :=
  ⟨hb ▸ hs.state,hb ▸ hs.value,hb ▸ hs.continuation,hs.active,hs.queue.trans hq.symm⟩

theorem requests_post_self (s : Machine c) (k calls : Nat) :
    (s.post ⟨k,calls⟩).requests k = s.requests k ++ [decide (calls = 0)] := by
  simp [requests,post]

theorem requests_post_other (h : j ≠ k) (s : Machine c) (calls : Nat) :
    (s.post ⟨j,calls⟩).requests k = s.requests k := by
  simp [requests,post,h]

theorem Shows.setState (hs : s.Shows k cell) (state : State) :
    (s.setState k state).Shows k { cell with state } := by
  obtain ⟨_,hvalue,hcontinuation,hactive,hqueue⟩ := hs
  exact ⟨by simp [Machine.setState],by simpa [Machine.setState] using hvalue,
    by simpa [Machine.setState] using hcontinuation,hactive,hqueue⟩

theorem Shows.postRequest (hs : s.Shows k cell) : (s.postRequest k).Shows k cell.postRequest := by
  have hposted := hs.setState .posted
  refine ⟨hposted.state,hposted.value,hposted.continuation,hposted.active,?_⟩
  rw [Machine.postRequest,requests_post_self,← hposted.queue]
  simp [Cell.postRequest]

theorem Shows.setValue (hs : s.Shows k cell) {value : c.T k} (h : s.setValue k value = some t) :
    ∃ cell', cell.setValue value = some cell' ∧ t.Shows k cell' := by
  obtain ⟨hstate,hvalue,hcontinuation,hactive,hqueue⟩ := hs
  have hready : (s.setBlock k { s.blocks k with state := .ready, value := some value }).Shows k
      { cell with value := some value, state := .ready } :=
    ⟨by simp,by simp,by simpa using hcontinuation,hactive,hqueue⟩
  simp only [Machine.setValue] at h
  split at h
  · rename_i hnew
    have hset : cell.setValue value = some (if (s.blocks k).continuation.isSome then
        Cell.postRequest { cell with value := some value, state := .ready }
        else { cell with value := some value, state := .ready }) := by
      simp [Cell.setValue,hstate.trans hnew,hcontinuation]
    refine ⟨_,hset,?_⟩
    cases h
    split
    · exact hready.postRequest
    · exact hready
  · rename_i hcancel
    cases h
    have hset : cell.setValue value = some cell := by simp [Cell.setValue,hstate.trans hcancel]
    exact ⟨cell,hset,hstate,hvalue,hcontinuation,hactive,hqueue⟩
  · cases h

theorem Shows.futureRoutine (hs : s.Shows k cell) : (s.futureRoutine k).Shows k cell.futureRoutine := by
  let u := s.setBlock (k+1) .init
  have hu : u.Shows k cell := hs.congr (setBlock_other s (by omega) _) rfl
  have hattached : (u.setBlock k { u.blocks k with continuation := some (c.stage k) }).Shows k
      { cell with continuation := some cell.returned.length, returned := cell.returned ++ [.new] } :=
    ⟨by simpa using hu.state,by simpa using hu.value,by simp,hu.active,hu.queue⟩
  have hleft : ∀ state, u.Shows k { cell with returned := cell.returned ++ [state] } :=
    fun _ => ⟨hu.state,hu.value,hu.continuation,hu.active,hu.queue⟩
  simp only [Machine.futureRoutine]
  split
  · rename_i hnew
    have he : cell.futureRoutine = { cell with
        continuation := some cell.returned.length, returned := cell.returned ++ [.new] } := by
      simp [Cell.futureRoutine,hu.state.trans hnew]
    exact he ▸ hattached
  · rename_i hready
    have he : cell.futureRoutine = Cell.postRequest { cell with
        continuation := some cell.returned.length, returned := cell.returned ++ [.new] } := by
      simp [Cell.futureRoutine,hu.state.trans hready]
    exact he ▸ hattached.postRequest
  · rename_i hcancel
    have he : cell.futureRoutine = { cell with returned := cell.returned ++ [.cancel] } := by
      simp [Cell.futureRoutine,hu.state.trans hcancel]
    exact he ▸ (hleft .cancel).congr (setBlock_other u (Nat.ne_of_lt (Nat.lt_succ_self k)) _) rfl
  · rename_i hnew hready hcancel
    have he : cell.futureRoutine = { cell with returned := cell.returned ++ [.new] } := by
      unfold Cell.futureRoutine
      split
      · exact absurd (hu.state.symm.trans ‹_›) hnew
      · exact absurd (hu.state.symm.trans ‹_›) hready
      · exact absurd (hu.state.symm.trans ‹_›) hcancel
      · rfl
    exact he ▸ hleft .new

theorem Shows.returned {cell : Cell (c.T (j+1))} (hs : s.Shows (j+1) cell) (hfresh : s.blocks (j+1) = .init) :
    (s.futureRoutine j).Shows (j+1) cell ∨ (s.futureRoutine j).Shows (j+1) cell.cancel := by
  let u := s.setBlock (j+1) .init
  have hu : u.Shows (j+1) cell := hs.congr ((setBlock_self s _).trans hfresh.symm) rfl
  simp only [Machine.futureRoutine]
  split
  · exact .inl (hu.congr (setBlock_other u (by omega) _) rfl)
  · refine .inl (hu.congr ((postRequest_other _ (by omega)).trans (setBlock_other u (by omega) _)) ?_)
    exact requests_post_other (by omega) _ _
  · exact .inr (hu.setState .cancel)
  · exact .inl hu

theorem futureRoutine_other (s : Machine c) (hj : k ≠ j) (hj' : k ≠ j+1) :
    (s.futureRoutine j).blocks k = s.blocks k ∧ (s.futureRoutine j).requests k = s.requests k := by
  let u := s.setBlock (j+1) .init
  have hu : u.blocks k = s.blocks k := setBlock_other s hj' _
  simp only [Machine.futureRoutine]
  split
  · exact ⟨(setBlock_other u hj _).trans hu,rfl⟩
  · exact ⟨((postRequest_other _ hj).trans (setBlock_other u hj _)).trans hu,requests_post_other hj.symm _ _⟩
  · exact ⟨(setBlock_other u hj' _).trans hu,rfl⟩
  · exact ⟨hu,rfl⟩

end Shows

section Steps
variable {cell : Cell (c.T k)}

inductive Turned (s : Machine c) : Machine c → Prop where
  | yielded {co : Coroutine} {rest : List Coroutine} {trace : List (Call c)} (hq : s.queue = co :: rest)
      (hb : (s.blocks co.block).continuation.isSome) :
      s.Turned (Machine.post { s with queue := rest, trace } { co with calls := co.calls+1 })
  | canceled {co : Coroutine} {rest : List Coroutine} {trace : List (Call c)} (hq : s.queue = co :: rest)
      (hb : (s.blocks co.block).continuation.isSome) :
      s.Turned ((Machine.cancel { s with queue := rest, trace } (co.block+1)).setState co.block .done)
  | set {co : Coroutine} {rest : List Coroutine} {trace : List (Call c)} {next : c.T (co.block+1)} {t : Machine c}
      (hq : s.queue = co :: rest) (hb : (s.blocks co.block).continuation.isSome)
      (ht : Machine.setValue { s with queue := rest, trace } (co.block+1) next = some t) :
      s.Turned (t.setState co.block .done)

theorem loopOnce_turned (h : s.loopOnceUnchecked = some t) : s.Turned t := by
  unfold loopOnceUnchecked at h
  split at h
  · cases h
  rename_i co rest hq
  obtain ⟨stage,hstage,h⟩ := Option.bind_eq_some_iff.mp h
  obtain ⟨value,hvalue,h⟩ := Option.bind_eq_some_iff.mp h
  have hb : (s.blocks co.block).continuation.isSome := by
    have hstage' : (s.blocks co.block).continuation = some stage := hstage
    simp [hstage']
  rcases hr : stage.resume value co.calls with ⟨invoked,resumed⟩
  rw [hr] at h
  obtain ⟨trace,hu⟩ : ∃ trace, (if invoked then
      { s with queue := rest, trace := s.trace ++ [⟨co.block,value⟩] } else { s with queue := rest }) =
      ({ s with queue := rest, trace } : Machine c) := by
    split
    · exact ⟨_,rfl⟩
    · exact ⟨_,rfl⟩
  dsimp only at h
  rw [hu] at h
  cases resumed with
  | yielded =>
    cases h
    exact .yielded hq hb
  | canceled =>
    cases h
    exact .canceled hq hb
  | set next =>
    obtain ⟨u,ht,h⟩ := Option.bind_eq_some_iff.mp h
    cases h
    exact .set hq hb ht

theorem Shows.resume (hs : s.Shows k cell) {calls : Nat} {rest : List Coroutine} (trace : List (Call c))
    (hq : s.queue = ⟨k,calls⟩ :: rest) (hb : (s.blocks k).continuation.isSome) :
    ∃ continuation cell', cell.resume = some cell' ∧ cell'.active = some continuation ∧
      Shows { s with queue := rest, trace } k { cell' with active := none } := by
  obtain ⟨hstate,hvalue,hcontinuation,hactive,hqueue⟩ := hs
  have hfront : s.requests k = decide (calls = 0) ::
      (rest.filter (fun co => co.block = k)).map (fun co => decide (co.calls = 0)) := by
    simp [requests,hq]
  rw [hfront] at hqueue
  obtain ⟨r,queue,hr,_,hrest⟩ := List.map_eq_cons_iff.mp hqueue
  cases r with
  | posted =>
    obtain ⟨continuation,hc⟩ := Option.isSome_iff_exists.mp (hcontinuation.trans hb)
    have hresume : cell.resume = some { cell with
        queue, active := some continuation, started := cell.started ++ [continuation] } := by
      simp [Cell.resume,hactive,hr,hc]
    exact ⟨continuation,_,hresume,rfl,hstate,hvalue,hcontinuation,rfl,hrest⟩
  | yielded continuation =>
    have hresume : cell.resume = some { cell with queue, active := some continuation } := by
      simp [Cell.resume,hactive,hr]
    exact ⟨continuation,_,hresume,rfl,hstate,hvalue,hcontinuation,rfl,hrest⟩

theorem Shows.popped (hs : s.Shows k cell) {co : Coroutine} {rest : List Coroutine} (trace : List (Call c))
    (hq : s.queue = co :: rest) (hj : co.block ≠ k) : Shows { s with queue := rest, trace } k cell :=
  hs.congr rfl (by simp [requests,hq,hj])

theorem Shows.ended (hs : s.Shows k cell) {calls : Nat} {rest : List Coroutine} (trace : List (Call c))
    (hq : s.queue = ⟨k,calls⟩ :: rest) (hb : (s.blocks k).continuation.isSome)
    (hself : t.blocks k = s.blocks k) (hqueue : t.requests k = requests { s with queue := rest } k) :
    ∃ cell', Path Cell.step Any cell cell' ∧ (t.setState k .done).Shows k cell' := by
  obtain ⟨continuation,cell',hresume,hactive,hshows⟩ := hs.resume trace hq hb
  have hfinish : cell'.step .finish = some { cell' with active := none, state := .done } := by
    simp [Cell.step,hactive]
  refine ⟨_,(Path.next .refl (l := .resume) trivial hresume).next trivial hfinish,?_⟩
  exact (hshows.congr hself hqueue).setState .done

theorem setValue_other {value : c.T j} (hj : k ≠ j) (h : s.setValue j value = some t) :
    t.blocks k = s.blocks k ∧ t.requests k = s.requests k := by
  simp only [Machine.setValue] at h
  split at h
  · cases h
    split
    · exact ⟨(postRequest_other _ hj).trans (setBlock_other s hj _),requests_post_other hj.symm _ _⟩
    · exact ⟨setBlock_other s hj _,rfl⟩
  · cases h
    exact ⟨rfl,rfl⟩
  · cases h

theorem Shows.turned (hs : s.Shows k cell) (h : s.Turned t) :
    ∃ cell', Path Cell.step Any cell cell' ∧ t.Shows k cell' := by
  cases h with
  | yielded hq hb =>
    rename_i co rest trace
    obtain ⟨j,calls⟩ := co
    by_cases hj : j = k
    · subst hj
      obtain ⟨continuation,cell',hresume,hactive,hshows⟩ := hs.resume trace hq hb
      have hyield : cell'.step .yield =
          some { cell' with active := none, queue := cell'.queue ++ [.yielded continuation] } := by
        simp [Cell.step,hactive]
      refine ⟨_,(Path.next .refl (l := .resume) trivial hresume).next trivial hyield,?_⟩
      refine ⟨hshows.state,hshows.value,hshows.continuation,rfl,?_⟩
      rw [requests_post_self,← hshows.queue]
      simp
    · exact ⟨cell,.refl,(hs.popped trace hq hj).congr rfl (requests_post_other hj _ _)⟩
  | canceled hq hb =>
    rename_i co rest trace
    obtain ⟨j,calls⟩ := co
    by_cases hj : j = k
    · subst hj
      exact hs.ended trace hq hb (setBlock_other _ (Nat.ne_of_lt (Nat.lt_succ_self j)) _) rfl
    have hother := hs.popped trace hq hj
    by_cases hj' : k = j+1
    · subst hj'
      have hcancel : cell.step .cancel = some cell.cancel := rfl
      refine ⟨_,Path.next .refl trivial hcancel,(hother.setState .cancel).congr ?_ rfl⟩
      exact setBlock_other _ (Ne.symm hj) _
    · refine ⟨cell,.refl,hother.congr ?_ rfl⟩
      exact (setBlock_other _ (Ne.symm hj) _).trans (setBlock_other _ hj' _)
  | set hq hb ht =>
    rename_i co rest trace next u
    obtain ⟨j,calls⟩ := co
    by_cases hj : j = k
    · subst hj
      obtain ⟨hself,hrequests⟩ := setValue_other (Nat.ne_of_lt (Nat.lt_succ_self j)) ht
      exact hs.ended trace hq hb hself hrequests
    have hother := hs.popped trace hq hj
    by_cases hj' : k = j+1
    · subst hj'
      obtain ⟨cell',hset,hshows⟩ := hother.setValue ht
      have hstep : cell.step (.setValue next) = some cell' := by simp [Cell.step,hset]
      exact ⟨_,Path.next .refl trivial hstep,hshows.congr (setBlock_other _ (Ne.symm hj) _) rfl⟩
    · obtain ⟨hself,hrequests⟩ := setValue_other hj' ht
      exact ⟨cell,.refl,hother.congr ((setBlock_other _ (Ne.symm hj) _).trans hself) hrequests⟩

theorem Shows.attach (hs : s.Shows k cell) (ho : s.Ordered) :
    ∃ cell', Path Cell.step Any cell cell' ∧ s.attach.Shows k cell' := by
  by_cases hk : k = s.attached
  · subst hk
    have hstep : cell.step .attach = some cell.futureRoutine := rfl
    exact ⟨_,Path.next .refl trivial hstep,hs.futureRoutine.congr rfl rfl⟩
  by_cases hk' : k = s.attached+1
  · subst hk'
    rcases hs.returned (ho.fresh _ (Nat.lt_succ_self _)) with hshows | hshows
    · exact ⟨cell,.refl,hshows.congr rfl rfl⟩
    · have hstep : cell.step .cancel = some cell.cancel := rfl
      exact ⟨_,Path.next .refl trivial hstep,hshows.congr rfl rfl⟩
  · obtain ⟨hblock,hrequests⟩ := futureRoutine_other s hk hk'
    exact ⟨cell,.refl,hs.congr hblock hrequests⟩

end Steps

section Ordered

theorem Ordered.frame (ho : s.Ordered) (hattached : t.attached = s.attached)
    (hcontinuation : ∀ j, (t.blocks j).continuation = (s.blocks j).continuation)
    (hfresh : ∀ j, s.attached < j → t.blocks j = s.blocks j) (hqueue : ∀ co ∈ t.queue, co.block < s.attached) :
    t.Ordered := by
  refine ⟨fun j hj => ?_,fun j hj => ?_,fun co hco => ?_⟩
  · rw [hcontinuation]
    exact ho.bare j (hattached ▸ hj)
  · rw [hfresh j (hattached ▸ hj)]
    exact ho.fresh j (hattached ▸ hj)
  · rw [hattached]
    exact hqueue co hco

theorem Ordered.setBlock (ho : s.Ordered) (hk : k ≤ s.attached) {b : ControlBlock (c.T k) (c.T (k+1))}
    (hb : b.continuation = (s.blocks k).continuation) : (s.setBlock k b).Ordered := by
  refine ho.frame rfl (fun j => ?_) (fun j hj => setBlock_other s (by omega) _) ho.queued
  by_cases hj : j = k
  · subst hj
    rw [setBlock_self,hb]
  · rw [setBlock_other s hj]

theorem Ordered.setState (ho : s.Ordered) (hk : k ≤ s.attached) (state : State) : (s.setState k state).Ordered := by
  unfold Machine.setState
  exact ho.setBlock hk rfl

theorem Ordered.post (ho : s.Ordered) (co : Coroutine) (hco : co.block < s.attached) : (s.post co).Ordered := by
  refine ho.frame rfl (fun _ => rfl) (fun _ _ => rfl) (fun co' hco' => ?_)
  rcases List.mem_append.mp hco' with hco' | hco'
  · exact ho.queued co' hco'
  · exact List.mem_singleton.mp hco' ▸ hco

theorem Ordered.attach (ho : s.Ordered) : s.attach.Ordered := by
  have hlast : (s.attach.blocks (s.attached+1)).continuation = none ∧
      ∀ co ∈ s.attach.queue, co ∈ s.queue ∨ co.block = s.attached := by
    let u := s.setBlock (s.attached+1) .init
    have hu : u.blocks (s.attached+1) = .init := setBlock_self s _
    have hne : s.attached+1 ≠ s.attached := Nat.succ_ne_self _
    simp only [Machine.attach,Machine.futureRoutine]
    split
    · refine ⟨?_,fun co hco => .inl hco⟩
      rw [setBlock_other u hne,hu]
      rfl
    · refine ⟨?_,fun co hco => ?_⟩
      · rw [postRequest_other _ hne,setBlock_other u hne,hu]
        rfl
      · rcases List.mem_append.mp hco with hco | hco
        · exact .inl hco
        · exact .inr (List.mem_singleton.mp hco ▸ rfl)
    · refine ⟨?_,fun co hco => .inl hco⟩
      rw [Machine.cancel,Machine.setState,setBlock_self,hu]
      rfl
    · exact ⟨congrArg ControlBlock.continuation hu,fun co hco => .inl hco⟩
  have hlater : ∀ j, s.attached+1 < j → s.attach.blocks j = .init := by
    intro j hj
    exact (futureRoutine_other s (by omega) (by omega)).1.trans (ho.fresh j (by omega))
  refine ⟨fun j hj => ?_,hlater,fun co hco => ?_⟩
  · rcases Nat.eq_or_lt_of_le hj with rfl | hj
    · exact hlast.1
    · rw [hlater j hj]
      rfl
  · rcases hlast.2 co hco with hco | hco
    · exact Nat.lt_succ_of_lt (ho.queued co hco)
    · exact hco ▸ Nat.lt_succ_self _

theorem Ordered.setValue (ho : s.Ordered) {value : c.T k} (hk : k ≤ s.attached)
    (h : s.setValue k value = some t) : t.Ordered ∧ t.attached = s.attached := by
  simp only [Machine.setValue] at h
  split at h
  · have hready : (s.setBlock k { s.blocks k with state := .ready, value := some value }).Ordered :=
      ho.setBlock hk rfl
    split at h
    · rename_i hsome
      cases h
      have hlt : k < s.attached := by
        by_contra hend
        rw [ho.bare k (by omega)] at hsome
        cases hsome
      exact ⟨(hready.setState hk .posted).post ⟨k,0⟩ hlt,rfl⟩
    · cases h
      exact ⟨hready,rfl⟩
  · cases h
    exact ⟨ho,rfl⟩
  · cases h

theorem Ordered.turned (ho : s.Ordered) (h : s.Turned t) : t.Ordered := by
  have hpopped : ∀ (co : Coroutine) rest (trace : List (Call c)), s.queue = co :: rest →
      Ordered { s with queue := rest, trace } ∧ co.block < s.attached := by
    intro co rest trace hq
    have hall := ho.queued
    rw [hq] at hall
    obtain ⟨hfront,hrest⟩ := List.forall_mem_cons.mp hall
    exact ⟨ho.frame rfl (fun _ => rfl) (fun _ _ => rfl) hrest,hfront⟩
  cases h with
  | yielded hq hb =>
    obtain ⟨hu,hlt⟩ := hpopped _ _ _ hq
    exact hu.post _ hlt
  | canceled hq hb =>
    obtain ⟨hu,hlt⟩ := hpopped _ _ _ hq
    exact (hu.setState hlt .cancel).setState (Nat.le_of_lt hlt) .done
  | set hq hb ht =>
    obtain ⟨hu,hlt⟩ := hpopped _ _ _ hq
    obtain ⟨ht,hattached⟩ := hu.setValue hlt ht
    exact ht.setState (hattached ▸ Nat.le_of_lt hlt) .done

end Ordered

section Running
variable {value : c.T 0}

theorem times_shows {n : Nat} {cell : Cell (c.T k)} (hs : s.Shows k cell) (ho : s.Ordered)
    (h : times loopOnceUnchecked n s = some t) :
    ∃ cell', Path Cell.step Any cell cell' ∧ t.Shows k cell' ∧ t.Ordered := by
  induction n generalizing s cell with
  | zero =>
    cases h
    exact ⟨cell,.refl,hs,ho⟩
  | succ n ih =>
    obtain ⟨u,hu,hrest⟩ := Option.bind_eq_some_iff.mp h
    obtain ⟨cell',hpath,hshows⟩ := hs.turned (loopOnce_turned hu)
    obtain ⟨cell'',hpath',hend⟩ := ih hshows (ho.turned (loopOnce_turned hu)) hrest
    exact ⟨cell'',hpath.trans hpath',hend⟩

theorem Shows.step {cell : Cell (c.T k)} (hs : s.Shows k cell) (ho : s.Ordered) {l : Label}
    (h : s.step value l = some t) : ∃ cell', Path Cell.step Any cell cell' ∧ t.Shows k cell' ∧ t.Ordered := by
  cases l with
  | attach =>
    simp only [Machine.step] at h
    split at h
    · cases h
      obtain ⟨cell',hpath,hshows⟩ := hs.attach ho
      exact ⟨cell',hpath,hshows,ho.attach⟩
    · cases h
  | setValue =>
    have ht := (ho.setValue (Nat.zero_le _) h).1
    by_cases hk : k = 0
    · subst hk
      obtain ⟨cell',hset,hshows⟩ := hs.setValue h
      have hstep : cell.step (.setValue value) = some cell' := by simp [Cell.step,hset]
      exact ⟨cell',Path.next .refl trivial hstep,hshows,ht⟩
    · obtain ⟨hself,hrequests⟩ := setValue_other hk h
      exact ⟨cell,.refl,hs.congr hself hrequests,ht⟩
  | loop =>
    have hloop : s.loop = some t := h
    rw [loop_times] at hloop
    exact times_shows hs ho hloop

/-- Whatever is done with a chain, each of its blocks has done what a cell can do, and has
at most one request under way. -/
theorem blocks_are_cells (hs : Path (Machine.step value) Any (init c) s) (k : Nat) :
    ∃ cell, Path Cell.step Any Cell.init cell ∧ s.Shows k cell ∧ (s.requests k).length ≤ 1 := by
  obtain ⟨cell,hpath,hshows,_⟩ := Path.simulated (R := fun s cell => Shows s k cell ∧ s.Ordered)
    (fun s l t cell _ hstep hR => hR.1.step hR.2 hstep) hs ⟨init_shows c k,init_ordered c⟩
  have hsingle : cell.Single := hpath.keeps (fun _ _ _ _ hstep hi => hi.step hstep) Cell.init_single
  refine ⟨cell,hpath,hshows,?_⟩
  rw [← hshows.queue,List.length_map]
  rcases hsingle.one with hidle | ⟨hempty,_⟩ | ⟨_,r,hr,_⟩
  · simp [hidle.1]
  · simp [hempty]
  · simp [hr]

end Running

end Machine

section Functors
variable {α β γ : Type} {moved : α → α} {k : ForwardType} {functor : Functor α β} {value : α} {s : Forwarding α β}

def Functor.Result : Functor α β → Type
  | .andThen _ => β
  | _ => α

/-- The stage of a functor, by what its calls give. -/
def Functor.stage : (functor : Functor α β) → Stage α functor.Result
  | .andThen f => .andThen (fun a => (f a).1)
  | .poll f => .poll rfl (fun a calls => (f a calls).1)
  | .pollCount count f => .pollCount rfl count (fun a calls => (f a calls).1)
  | .cancelIf f => .cancelIf rfl (fun a => (f a).1)

inductive Outcome.Passes : (functor : Functor α β) → Outcome α β → Resumed functor.Result → Prop where
  | queued {functor : Functor α β} : Passes functor .queued .yielded
  | canceled {functor : Functor α β} : Passes functor .canceled .canceled
  | continued {f : α → β × α} (result : β) : Passes (.andThen f) (.continued result) (.set result)
  | polled {f : α → Nat → Bool × α} (value : α) : Passes (.poll f) (.resolved value) (.set value)
  | counted {count : Nat} {f : α → Nat → Bool × α} (value : α) :
      Passes (.pollCount count f) (.resolved value) (.set value)
  | kept {f : α → Bool × α} (value : α) : Passes (.cancelIf f) (.resolved value) (.set value)

theorem ForwardType.call_result (moved : α → α) (k : ForwardType) (f : α → γ × α) (value : α) :
    (k.call moved f value).1 = (f value).1 := by
  cases k <;> rfl

theorem ForwardType.give_result (moved : α → α) (k : ForwardType) (value : α) : (k.give moved value).1 = value := by
  cases k <;> rfl

theorem Forwarding.setValue_outcome (moved : α → α) (k : ForwardType) (s : Forwarding α β) :
    (s.setValue moved k).outcome = .resolved s.shared := by
  simp only [Forwarding.setValue]
  rw [k.give_result]

theorem ForwardType.Leaves.pollOnce_result (h : k.Leaves moved functor value) (hs : s.Safe value)
    (hq : s.outcome = .queued) {f : α → Nat → Bool × α} (hf : k = .lvalue → ∀ a calls, (f a calls).2 = a) :
    (s.pollOnce moved k f).received = s.received ++ [value] ∧
    (s.pollOnce moved k f).outcome = if (f value s.received.length).1 then .resolved value else .queued := by
  have hshared := hs.shared hq
  have hleft : (k.call moved (fun a => f a s.received.length) s.shared).2 = value := by
    rw [hshared]
    exact h.call (fun hk => hf hk _ _)
  have hstop : (k.call moved (fun a => f a s.received.length) s.shared).1 = (f value s.received.length).1 := by
    rw [k.call_result moved,hshared]
  have hcalled : (s.called value).received = s.received ++ [value] := by rw [Forwarding.called,hshared]
  simp only [Forwarding.pollOnce,hstop,hleft]
  split
  · exact ⟨hcalled,Forwarding.setValue_outcome moved k _⟩
  · exact ⟨hcalled,hq⟩

/-- A functor that takes nothing away makes of its value what its stage does. -/
theorem ForwardType.Leaves.stage (h : k.Leaves moved functor value) (hs : s.Safe value)
    (hq : s.outcome = .queued) :
    Outcome.Passes functor (s.resume moved k functor).outcome (functor.stage.resume value s.received.length).2 ∧
    (s.resume moved k functor).received =
      if (functor.stage.resume value s.received.length).1 then s.received ++ [value] else s.received := by
  have hshared := hs.shared hq
  have hpure : k = .lvalue → functor.Unmutating := by
    rintro rfl
    exact h.admits
  cases functor with
  | andThen f =>
    refine ⟨?_,?_⟩
    · simp only [Forwarding.resume,ForwardType.call_result,hshared]
      exact .continued _
    · simp [Forwarding.resume,Forwarding.called,Functor.stage,Stage.resume,hshared]
  | poll f =>
    obtain ⟨hreceived,houtcome⟩ := h.pollOnce_result hs hq hpure
    simp only [Forwarding.resume,Functor.stage,Stage.resume]
    rw [hreceived,houtcome]
    rcases Bool.eq_false_or_eq_true (f value s.received.length).1 with hf | hf <;> simp only [hf]
    · exact ⟨.polled value,rfl⟩
    · exact ⟨.queued,rfl⟩
  | pollCount count f =>
    simp only [Forwarding.resume,Functor.stage,Stage.resume]
    split
    · refine ⟨?_,rfl⟩
      rw [Forwarding.setValue_outcome,hshared]
      exact .counted value
    · obtain ⟨hreceived,houtcome⟩ := h.pollOnce_result hs hq hpure
      rw [hreceived,houtcome]
      rcases Bool.eq_false_or_eq_true (f value s.received.length).1 with hf | hf <;> simp only [hf]
      · exact ⟨.counted value,rfl⟩
      · exact ⟨.queued,rfl⟩
  | cancelIf f =>
    have hleft : (k.call moved f s.shared).2 = value := by
      rw [hshared]
      exact h.call (fun hk => hpure hk _)
    have hstop : (k.call moved f s.shared).1 = (f value).1 := by rw [k.call_result moved,hshared]
    have hcalled : (s.called value).received = s.received ++ [value] := by rw [Forwarding.called,hshared]
    have houtcome := Forwarding.setValue_outcome moved k (s.called value)
    simp only [Forwarding.resume,Functor.stage,Stage.resume,hleft,hstop]
    rcases Bool.eq_false_or_eq_true (f value).1 with hf | hf <;> simp only [hf]
    · exact ⟨.canceled,hcalled⟩
    · refine ⟨?_,hcalled⟩
      rw [if_neg Bool.false_ne_true,houtcome]
      exact .kept value

end Functors

end Future
end FluentNet
