import FluentNet.Policy
import FluentNet.Throws
import FluentNet.Library.Runs
import Mathlib.Logic.Function.Basic
set_option autoImplicit false

/-!
The POSIX calls of coroutines: a call that cannot be served at once registers its
coroutine for an event of the fd and yields, and `loop` resumes it.
-/

namespace FluentNet
namespace Posix
open Runs

inductive EventType where
  | READ | WRITE | ERROR
  deriving DecidableEq, Repr

def EPOLLERR : EventBitmap := 8

def EventType.newEvent : EventType → EventBitmap
  | .READ => EPOLLIN
  | .WRITE => EPOLLOUT
  | .ERROR => EPOLLERR

structure Event where
  routines : EventType → Option Nat
  events : EventBitmap

/-- Where a coroutine is suspended: in `read`, `write` or `accept4` on an fd, in
`connect` after as many tries, or in the `poll` that `connect` backs off with. -/
inductive Frame where
  | read (fd : Nat)
  | write (fd : Nat)
  | accept4 (fd : Nat)
  | connect (fd retries : Nat)
  | backOff (fd retries epfd : Nat)
  deriving DecidableEq, Repr

def Frame.fd : Frame → Nat
  | .read fd | .write fd | .accept4 fd | .connect fd _ => fd
  | .backOff _ _ epfd => epfd

def Frame.type : Frame → EventType
  | .read _ | .accept4 _ | .backOff _ _ _ => .READ
  | .write _ | .connect _ _ => .WRITE

/-- `poll` does not look at what `addEvent` returns. -/
def Frame.unchecked : Frame → Bool
  | .backOff _ _ _ => true
  | _ => false

inductive Call where
  | read (fd : Nat)
  | write (fd : Nat)
  | accept4 (fd : Nat)
  | connect (fd : Nat)
  deriving DecidableEq, Repr

structure Answer where
  /-- the result of the first `::read`, `::write` or `::accept4` -/
  ret : Int
  /-- `SO_ERROR`, unless `getsockopt` fails -/
  soerr : Option Nat
  /-- `getpeername` finds a peer -/
  peer : Bool
  /-- the descriptor that `poll` waits on, unless it returns before -/
  epfd : Option Nat
  deriving DecidableEq, Repr

/-- The loop of `connect`, up to its next `addEvent`; it has returned when there is none. -/
def connectLoop (maxRetries fd retries : Nat) (ans : Answer) : Option Frame :=
  if retries < maxRetries then
    -- the first three tries do not wait
    let first := if retries > 2 then ans.epfd else none
    match first with
    | some epfd => some (.backOff fd (retries+1) epfd)
    | none => some (.connect fd (retries+1))
  else none

def Call.enter (maxRetries : Nat) (ans : Answer) : Call → Option Frame
  | .read fd => if ans.ret > 0 then none else some (.read fd)
  | .write fd => if ans.ret > 0 then none else some (.write fd)
  | .accept4 fd => if ans.ret ≥ 0 then none else some (.accept4 fd)
  | .connect fd => connectLoop maxRetries fd 0 ans

/-- From `yield()` to the next `addEvent` or the end of the call. -/
def Frame.resume (maxRetries : Nat) (ans : Answer) : Frame → Option Frame
  | .read _ | .write _ | .accept4 _ => none
  | .backOff fd retries _ => some (.connect fd retries)
  | .connect fd retries =>
      match ans.soerr with
      | none => none
      | some soerr =>
          if soerr ∈ [0,EINTR,EINPROGRESS,EALREADY,EISCONN] then
            if ans.peer then none else connectLoop maxRetries fd retries ans
          else if soerr ∈ [EAGAIN,EADDRINUSE,EADDRNOTAVAIL,ENETUNREACH,ECONNREFUSED] then
            connectLoop maxRetries fd retries ans
          else none

structure Poller where
  /-- `PollConfig::events` -/
  events : Nat → Option Event
  /-- the mask that an fd is registered with in the epoll set -/
  interest : Nat → Option EventBitmap
  /-- where each coroutine is suspended in one of the calls, if it is -/
  suspended : Nat → Option Frame
  /-- the routines that `loop` has taken from an entry and has still to resume -/
  routines : List Nat

namespace Poller

def init : Poller := ⟨fun _ => none,fun _ => none,fun _ => none,[]⟩

/-- `addEvent` in coroutine `c`; nothing for `events.end()`. -/
def addEvent (s : Poller) (c fd : Nat) (type : EventType) : Option Poller :=
  let put (e : Event) : Poller :=
    { s with
      events := Function.update s.events fd (some e)
      interest := Function.update s.interest fd (some e.events) }
  match s.events fd with
  | none => some (put ⟨Function.update (fun _ => none) type (some c),type.newEvent⟩)
  | some e =>
      if hasBits e.events type.newEvent then none
      else some (put { e with events := e.events ||| type.newEvent })

def suspend (s : Poller) (c : Nat) (frame : Option Frame) : Poller :=
  { s with suspended := Function.update s.suspended c frame }

def settle (s : Poller) (c : Nat) : Option Frame → Poller
  | none => s.suspend c none
  | some frame =>
      match s.addEvent c frame.fd frame.type with
      | some t => t.suspend c (some frame)
      | none => s.suspend c (if frame.unchecked then some frame else none)

inductive Label where
  /-- a coroutine makes a call -/
  | call (c : Nat) (call : Call) (ans : Answer)
  /-- `loop` receives an event for an fd -/
  | event (fd : Nat)
  /-- `loop` resumes the next of the routines that it has taken -/
  | resume (ans : Answer)
  deriving DecidableEq, Repr

def turn (maxRetries : Nat) (s : Poller) : Label → Option (Nat × Option Frame)
  | .call c call ans => if s.suspended c = none then some (c,call.enter maxRetries ans) else none
  | .event _ => none
  | .resume ans =>
      match s.routines with
      | [] => none
      | c :: _ => (s.suspended c).map (fun frame => (c,frame.resume maxRetries ans))

/-- The descriptors that `poll` makes are not those that others wait on. -/
def Distinct (s : Poller) : Option Frame → Prop
  | some (.backOff _ _ epfd) => (s.events epfd).isNone
  | _ => True

instance (s : Poller) (frame : Option Frame) : Decidable (s.Distinct frame) := by
  unfold Distinct
  split <;> infer_instance

def slots (e : Event) : List Nat :=
  [EventType.READ,.WRITE,.ERROR].filterMap e.routines

def step (maxRetries : Nat) (s : Poller) : Label → Option Poller
  | .event fd =>
      if s.routines = [] ∧ (s.interest fd).isSome then
        match s.events fd with
        | none => some s
        | some e => some { s with
            events := Function.update s.events fd none
            interest := Function.update s.interest fd none
            routines := slots e }
      else none
  | l =>
      match s.turn maxRetries l with
      | none => none
      | some (c,frame) =>
          if s.Distinct frame then
            let rest := match l with
              | .resume _ => s.routines.tail
              | _ => s.routines
            some ({ s with routines := rest }.settle c frame)
          else none

def Held (s : Poller) (c : Nat) (frame : Frame) : Prop :=
  ∃ e, s.events frame.fd = some e ∧ e.routines frame.type = some c

/-- No coroutine is suspended in a call without being held, but for those that
`loop` is about to resume. -/
def Attended (s : Poller) : Prop :=
  ∀ c frame, s.suspended c = some frame → c ∉ s.routines → s.Held c frame

/-- An fd that a call comes to has no entry yet, or one for the same event. -/
def Admits (maxRetries : Nat) (s : Poller) (l : Label) : Prop :=
  match s.turn maxRetries l with
  | some (_,some frame) => ∀ e ∈ s.events frame.fd, hasBits e.events frame.type.newEvent = true
  | _ => True

instance (maxRetries : Nat) (s : Poller) (l : Label) : Decidable (s.Admits maxRetries l) := by
  unfold Admits
  split <;> infer_instance

def entryOf (c : Nat) (type : EventType) : Event :=
  ⟨Function.update (fun _ => none) type (some c),type.newEvent⟩

structure Tidy (s : Poller) : Prop where
  entry : ∀ fd e, s.events fd = some e → ∃ c frame, s.suspended c = some frame ∧
    frame.fd = fd ∧ c ∉ s.routines ∧ e = entryOf c frame.type
  attended : s.Attended
  nodup : s.routines.Nodup
  taken : ∀ c ∈ s.routines, (s.suspended c).isSome
  interest : ∀ fd, s.interest fd = (s.events fd).map Event.events

structure TidyBut (s : Poller) (c : Nat) : Prop where
  entry : ∀ fd e, s.events fd = some e → ∃ d frame, d ≠ c ∧ s.suspended d = some frame ∧
    frame.fd = fd ∧ d ∉ s.routines ∧ e = entryOf d frame.type
  attended : ∀ d frame, d ≠ c → s.suspended d = some frame → d ∉ s.routines → s.Held d frame
  nodup : s.routines.Nodup
  taken : ∀ d ∈ s.routines, d ≠ c ∧ (s.suspended d).isSome
  interest : ∀ fd, s.interest fd = (s.events fd).map Event.events

section Settling
variable {s : Poller} {c : Nat}

theorem init_tidy : init.Tidy := by
  refine ⟨?_,?_,List.nodup_nil,?_,fun _ => rfl⟩
  · intro fd e h
    cases h
  · intro c frame h
    cases h
  · intro c h
    cases h

@[simp] theorem entryOf_self (c : Nat) (type : EventType) :
    (entryOf c type).routines type = some c := by simp [entryOf]

theorem entryOf_some {c d : Nat} {type other : EventType}
    (h : (entryOf c type).routines other = some d) : d = c := by
  by_cases ht : other = type
  · rw [ht,entryOf_self] at h
    cases h
    rfl
  · simp [entryOf,ht] at h

theorem slots_entryOf (c : Nat) (type : EventType) : slots (entryOf c type) = [c] := by
  cases type <;> simp [slots,entryOf]

theorem Tidy.running (hs : s.Tidy) (hc : s.suspended c = none) : s.TidyBut c := by
  have hne : ∀ d, (s.suspended d).isSome → d ≠ c := by
    rintro d hd rfl
    simp [hc] at hd
  refine ⟨?_,fun d frame _ => hs.attended d frame,hs.nodup,fun d hd => ⟨hne d (hs.taken d hd),hs.taken d hd⟩,
    hs.interest⟩
  intro fd e he
  obtain ⟨d,frame,hd,hrest⟩ := hs.entry fd e he
  exact ⟨d,frame,hne d (by simp [hd]),hd,hrest⟩

theorem Tidy.resumed (hs : s.Tidy) {rest : List Nat} (hr : s.routines = c :: rest) :
    TidyBut { s with routines := rest } c := by
  obtain ⟨hnot,hnodup⟩ := List.nodup_cons.mp (hr ▸ hs.nodup)
  refine ⟨?_,?_,hnodup,?_,hs.interest⟩
  · intro fd e he
    obtain ⟨d,frame,hd,hfd,hout,hent⟩ := hs.entry fd e he
    rw [hr] at hout
    obtain ⟨hne,hrest⟩ := not_or.mp (fun h => hout (List.mem_cons.mpr h))
    exact ⟨d,frame,hne,hd,hfd,hrest,hent⟩
  · intro d frame hne hd hout
    refine hs.attended d frame hd ?_
    rw [hr]
    exact fun h => (List.mem_cons.mp h).elim hne hout
  · intro d hd
    refine ⟨?_,hs.taken d (hr ▸ List.mem_cons_of_mem _ hd)⟩
    rintro rfl
    exact hnot hd

theorem TidyBut.left (hs : s.TidyBut c) : (s.suspend c none).Tidy := by
  have hsame : ∀ d, d ≠ c → (s.suspend c none).suspended d = s.suspended d := by
    intro d hd
    simp [suspend,hd]
  refine ⟨?_,?_,hs.nodup,?_,hs.interest⟩
  · intro fd e he
    obtain ⟨d,frame,hne,hd,hrest⟩ := hs.entry fd e he
    exact ⟨d,frame,(hsame d hne).trans hd,hrest⟩
  · intro d frame hd hout
    by_cases hne : d = c
    · subst hne
      simp [suspend] at hd
    · exact hs.attended d frame hne ((hsame d hne).symm.trans hd) hout
  · intro d hd
    obtain ⟨hne,hsome⟩ := hs.taken d hd
    rwa [hsame d hne]

theorem TidyBut.registered (hs : s.TidyBut c) {frame : Frame} (hfree : s.events frame.fd = none) :
    (s.settle c (some frame)).Tidy := by
  have hadd : s.settle c (some frame) = suspend { s with
      events := Function.update s.events frame.fd (some (entryOf c frame.type))
      interest := Function.update s.interest frame.fd (some frame.type.newEvent) } c (some frame) := by
    simp only [settle,addEvent,hfree]
    rfl
  rw [hadd]
  have hsame : ∀ d, d ≠ c → Function.update s.suspended c (some frame) d = s.suspended d :=
    fun d hd => Function.update_of_ne hd _ _
  have hout : c ∉ s.routines := fun h => (hs.taken c h).1 rfl
  -- whoever waits on another fd still has its entry
  have hother : ∀ d f, d ≠ c → s.suspended d = some f → d ∉ s.routines → f.fd ≠ frame.fd := by
    intro d f hne hd hnot hfd
    obtain ⟨e,he,_⟩ := hs.attended d f hne hd hnot
    rw [hfd,hfree] at he
    cases he
  refine ⟨?_,?_,hs.nodup,?_,?_⟩
  · intro fd e he
    by_cases hfd : fd = frame.fd
    · subst hfd
      simp only [suspend,Function.update_self] at he
      cases he
      exact ⟨c,frame,Function.update_self _ _ _,rfl,hout,rfl⟩
    · simp only [suspend,Function.update_of_ne hfd] at he
      obtain ⟨d,f,hne,hd,hrest⟩ := hs.entry fd e he
      exact ⟨d,f,(hsame d hne).trans hd,hrest⟩
  · intro d f hd hnot
    by_cases hne : d = c
    · subst hne
      simp only [suspend,Function.update_self] at hd
      cases hd
      exact ⟨_,Function.update_self _ _ _,entryOf_self d frame.type⟩
    · have hd' : s.suspended d = some f := (hsame d hne).symm.trans hd
      obtain ⟨e,he,hslot⟩ := hs.attended d f hne hd' hnot
      exact ⟨e,(Function.update_of_ne (hother d f hne hd' hnot) _ _).trans he,hslot⟩
  · intro d hd
    obtain ⟨hne,hsome⟩ := hs.taken d hd
    simp only [suspend]
    rwa [hsame d hne]
  · intro fd
    by_cases hfd : fd = frame.fd
    · subst hfd
      simp only [suspend,Function.update_self,Option.map_some]
      rfl
    · simp only [suspend,Function.update_of_ne hfd]
      exact hs.interest fd

theorem TidyBut.settle (hs : s.TidyBut c) {frame : Option Frame} (hd : s.Distinct frame)
    (hadm : ∀ f, frame = some f → ∀ e ∈ s.events f.fd, hasBits e.events f.type.newEvent = true) :
    (s.settle c frame).Tidy := by
  cases frame with
  | none => exact hs.left
  | some f =>
    cases he : s.events f.fd with
    | none => exact hs.registered he
    | some e =>
      have hdup := hadm f rfl e he
      have hchecked : f.unchecked = false := by
        cases f with
        | backOff fd retries epfd =>
          have hnone : s.events epfd = none := Option.isNone_iff_eq_none.mp hd
          rw [Frame.fd,hnone] at he
          cases he
        | read fd => rfl
        | write fd => rfl
        | accept4 fd => rfl
        | connect fd retries => rfl
      have hback : s.settle c (some f) = s.suspend c none := by
        simp [Poller.settle,addEvent,he,hdup,hchecked]
      rw [hback]
      exact hs.left

theorem TidyBut.lost (hs : s.TidyBut c) {frame : Frame} {e : Event}
    (he : s.events frame.fd = some e) (hbit : hasBits e.events frame.type.newEvent = false) :
    ¬(s.settle c (some frame)).Attended := by
  intro hatt
  have hadd : s.settle c (some frame) = suspend { s with
      events := Function.update s.events frame.fd
        (some { e with events := e.events ||| frame.type.newEvent })
      interest := Function.update s.interest frame.fd (some (e.events ||| frame.type.newEvent)) }
      c (some frame) := by
    simp only [Poller.settle,addEvent,he,hbit]
    rfl
  rw [hadd] at hatt
  have hout : c ∉ s.routines := fun h => (hs.taken c h).1 rfl
  obtain ⟨e',he',hslot⟩ := hatt c frame (Function.update_self _ _ _) hout
  simp only [suspend,Function.update_self] at he'
  cases he'
  obtain ⟨d,f,hne,_,_,_,rfl⟩ := hs.entry _ _ he
  exact hne (entryOf_some hslot).symm

end Settling

section Steps
variable {maxRetries : Nat} {s t : Poller} {l : Label}

theorem Tidy.event (hs : s.Tidy) {fd : Nat} (h : s.step maxRetries (.event fd) = some t) : t.Tidy := by
  have hguard : s.routines = [] ∧ (s.interest fd).isSome := by
    by_cases hg : s.routines = [] ∧ (s.interest fd).isSome
    · exact hg
    · simp [step,hg] at h
  simp only [step,if_pos hguard] at h
  obtain ⟨hr,_⟩ := hguard
  cases he : s.events fd with
  | none =>
    rw [he] at h
    cases h
    exact hs
  | some e =>
    rw [he] at h
    cases h
    obtain ⟨c,frame,hc,rfl,_,rfl⟩ := hs.entry fd e he
    rw [slots_entryOf]
    have hnot : ∀ d, d ∉ s.routines := by simp [hr]
    -- the fd has one slot, so whoever else waits does so on another
    have hother : ∀ d f, d ≠ c → s.suspended d = some f → f.fd ≠ frame.fd := by
      intro d f hne hd hfd
      obtain ⟨e,he',hslot⟩ := hs.attended d f hd (hnot d)
      rw [hfd,he] at he'
      cases he'
      exact hne (entryOf_some hslot)
    refine ⟨?_,?_,by simp,?_,?_⟩
    · intro fd' e' he'
      by_cases hfd : fd' = frame.fd
      · subst hfd
        simp at he'
      · simp only [Function.update_of_ne hfd] at he'
        obtain ⟨d,f,hd,hfd',_,hent⟩ := hs.entry fd' e' he'
        refine ⟨d,f,hd,hfd',?_,hent⟩
        intro hmem
        obtain rfl := List.mem_singleton.mp hmem
        rw [hc] at hd
        cases hd
        exact hfd hfd'.symm
    · intro d f hd hnew
      have hne : d ≠ c := fun h => hnew (List.mem_singleton.mpr h)
      obtain ⟨e,he',hslot⟩ := hs.attended d f hd (hnot d)
      exact ⟨e,(Function.update_of_ne (hother d f hne hd) _ _).trans he',hslot⟩
    · intro d hd
      obtain rfl := List.mem_singleton.mp hd
      simp [hc]
    · intro fd'
      by_cases hfd : fd' = frame.fd
      · subst hfd
        simp
      · simp only [Function.update_of_ne hfd]
        exact hs.interest fd'

/-- What a step other than an event does: some coroutine runs to its next frame. -/
theorem step_turn (hs : s.Tidy) (hl : ∀ fd, l ≠ .event fd) (h : s.step maxRetries l = some t) :
    ∃ c frame u, s.turn maxRetries l = some (c,frame) ∧ TidyBut u c ∧ u.events = s.events ∧
      u.Distinct frame ∧ t = u.settle c frame := by
  cases l with
  | event fd => exact absurd rfl (hl fd)
  | call c call ans =>
    simp only [step] at h
    cases hturn : s.turn maxRetries (.call c call ans) with
    | none => simp [hturn] at h
    | some p =>
      obtain ⟨d,frame⟩ := p
      simp only [hturn] at h
      split at h
      · rename_i hd
        cases h
        simp only [turn] at hturn
        split at hturn
        · rename_i hc
          cases hturn
          exact ⟨c,_,s,rfl,hs.running hc,rfl,hd,rfl⟩
        · cases hturn
      · cases h
  | resume ans =>
    simp only [step] at h
    cases hturn : s.turn maxRetries (.resume ans) with
    | none => simp [hturn] at h
    | some p =>
      obtain ⟨d,frame⟩ := p
      simp only [hturn] at h
      split at h
      · rename_i hd
        cases h
        simp only [turn] at hturn
        split at hturn
        · cases hturn
        · rename_i c rest hr
          obtain ⟨f,hf,hp⟩ := Option.map_eq_some_iff.mp hturn
          cases hp
          refine ⟨d,_,{ s with routines := rest },rfl,hs.resumed hr,rfl,hd,?_⟩
          rw [hr]
          rfl
      · cases h

theorem Tidy.step (hs : s.Tidy) (hadm : s.Admits maxRetries l) (h : s.step maxRetries l = some t) :
    t.Tidy := by
  by_cases hl : ∃ fd, l = .event fd
  · obtain ⟨fd,rfl⟩ := hl
    exact hs.event h
  · obtain ⟨c,frame,u,hturn,hu,hevents,hd,rfl⟩ := step_turn hs (fun fd he => hl ⟨fd,he⟩) h
    refine hu.settle hd (fun f hf => ?_)
    subst hf
    rw [hevents]
    simpa only [Admits,hturn] using hadm

theorem Tidy.admits (hs : s.Tidy) (h : s.step maxRetries l = some t) (hatt : t.Attended) :
    s.Admits maxRetries l := by
  by_cases hl : ∃ fd, l = .event fd
  · obtain ⟨fd,rfl⟩ := hl
    exact trivial
  · obtain ⟨c,frame,u,hturn,hu,hevents,hd,rfl⟩ := step_turn hs (fun fd he => hl ⟨fd,he⟩) h
    cases frame with
    | none => simp [Admits,hturn]
    | some f =>
      simp only [Admits,hturn]
      intro e he
      rw [← hevents] at he
      cases hbit : hasBits e.events f.type.newEvent with
      | true => rfl
      | false => exact absurd hatt (hu.lost he hbit)

theorem Held.woken {c fd : Nat} {frame : Frame} (hc : s.Held c frame) (hfd : frame.fd = fd)
    (h : s.step maxRetries (.event fd) = some t) : c ∈ t.routines := by
  obtain ⟨e,he,hslot⟩ := hc
  rw [hfd] at he
  simp only [Poller.step,he] at h
  split at h
  · cases h
    exact List.mem_filterMap.mpr ⟨frame.type,by cases frame.type <;> simp,hslot⟩
  · cases h

end Steps

/-- As long as no call comes to an fd that a coroutine waits on for another event,
every suspended coroutine is in its slot, and the next event for its fd resumes it.
A call that does come to one is lost. -/
theorem attended_iff_admits (maxRetries : Nat) (s : Poller)
    (hrun : Path (step maxRetries) (Admits maxRetries) init s) :
    s.Attended ∧
    (∀ c frame t, s.suspended c = some frame → c ∉ s.routines →
      s.step maxRetries (.event frame.fd) = some t → c ∈ t.routines) ∧
    ∀ l t, s.step maxRetries l = some t → (t.Attended ↔ s.Admits maxRetries l) := by
  have hs : s.Tidy := hrun.keeps (fun _ _ _ hadm hstep hi => hi.step hadm hstep) init_tidy
  refine ⟨hs.attended,fun c frame t hc hnot h => (hs.attended c frame hc hnot).woken rfl h,
    fun l t h => ⟨hs.admits h,fun hadm => (hs.step hadm h).attended⟩⟩

def unready : Answer := ⟨-1,some ECONNREFUSED,false,some 9⟩

def apart : List Label :=
  [.call 0 (.read 3) unready,.call 1 (.connect 4) unready,.event 4,.resume unready]

theorem attended_iff_admits_apart : ∃ s : Poller, s.suspended 1 = some (.connect 4 2) ∧ s.Attended ∧
    (∀ c frame t, s.suspended c = some frame → c ∉ s.routines →
      s.step 8 (.event frame.fd) = some t → c ∈ t.routines) ∧
    ∀ l t, s.step 8 l = some t → (t.Attended ↔ s.Admits 8 l) := by
  have hrun : (run (step 8) (Admits 8) init apart).any
      (fun s => s.suspended 1 = some (.connect 4 2)) := by decide +kernel
  obtain ⟨s,hs,hcond⟩ := (Option.any_eq_true _ _).mp hrun
  exact ⟨s,of_decide_eq_true hcond,attended_iff_admits 8 s (run_path hs)⟩

/-- A second coroutine writes to the fd that the first one waits to read. -/
theorem second_waiter_lost : ¬∀ (maxRetries : Nat) (s : Poller),
    Path (step maxRetries) Any init s → s.Attended := by
  intro hall
  have hrun : (run (step 8) Any init [.call 0 (.read 3) unready,.call 1 (.write 3) unready]).any
      (fun s => s.suspended 1 = some (.write 3) ∧ s.routines = [] ∧
        (s.events 3).all (fun e => e.routines .WRITE = none)) := by decide +kernel
  obtain ⟨s,hs,hcond⟩ := (Option.any_eq_true _ _).mp hrun
  obtain ⟨hwait,hr,hslot⟩ := of_decide_eq_true hcond
  obtain ⟨e,he,hheld⟩ := hall 8 s (run_path hs) 1 (.write 3) hwait (by simp [hr])
  simp only [Frame.fd] at he
  simp only [he,Option.all_some,decide_eq_true_iff] at hslot
  rw [Frame.type,hslot] at hheld
  cases hheld

end Poller

end Posix
end FluentNet
