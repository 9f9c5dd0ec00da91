import FluentNet.Handler.EpollMirror
set_option autoImplicit false

/-!
What an interest mask asks of epoll. `EVENT_READ` and `EVENT_WRITE` are built from
`si_code` values, and epoll reads them as its own bits.
-/

namespace FluentNet
open Throwing Runs

def Masked (events : EventBitmap) : Prop :=
  events = EVENT_NONE ∨ events = EVENT_READ ∨ events = EVENT_WRITE ∨
    events = EVENT_READ ||| EVENT_WRITE

/-- The mask that the kernel has wakes for writability and for readability just
when the context says so. -/
def Conn.Faithful (s : Conn) : Prop :=
  ∀ mask, s.interest = some mask →
    hasBits mask EPOLLOUT = writeEnabled s.events ∧ hasBits mask EPOLLIN = readEnabled s.events

section Masks
variable {events : EventBitmap}

theorem Masked.epoll_bits (h : Masked events) :
    hasBits events EPOLLOUT = readEnabled events ∧ hasBits events EPOLLIN = readEnabled events := by
  rcases h with rfl | rfl | rfl | rfl <;> decide

theorem Masked.apply (h : Masked events) (switch : Switch) : Masked (switch.apply events) := by
  rcases h with rfl | rfl | rfl | rfl <;> cases switch <;> simp only [Masked] <;> decide

theorem Masked.applyAll (h : Masked events) (switches : List Switch) :
    Masked (switches.foldl (fun events switch => switch.apply events) events) := by
  induction switches generalizing events with
  | nil => exact h
  | cons switch switches ih => exact ih (h.apply switch)

end Masks

structure Conn.Mapped (s : Conn) : Prop where
  masked : Masked s.events
  mirrors : (∀ c ∈ s.ctls, c.ok = true) → s.Mirrors

theorem updateEvents_mapped {s : Conn} (ctl : CtlAnswer) (hs : Masked s.events) :
    (updateEvents ctl s).2.Mapped := by
  obtain ⟨interest,ok,hframe⟩ := updateEvents_frame ctl s
  have hmasked : Masked (updateEvents ctl s).2.events := by
    rw [hframe]
    exact hs
  refine ⟨hmasked,fun hok => ?_⟩
  cases hu : updateEvents ctl s with
  | mk res t =>
  cases res with
  | ok u => exact updateEvents_ok_mirrors hu
  | error e =>
    rw [hu,updateEvents_error_ctls hu] at hok
    exact absurd (hok _ (List.mem_append_right _ (List.mem_singleton_self _))) (by simp [Conn.ctlCall])

theorem EpollStep.mapped {s t : Conn} (hst : EpollStep s t) (hs : s.Mapped) : t.Mapped := by
  cases hst with
  | frame hl =>
    refine ⟨by rw [hl.events]; exact hs.masked,fun hok => ?_⟩
    rw [hl.ctls] at hok
    exact (hs.mirrors hok).frame hl
  | update switches ctl => exact updateEvents_mapped ctl (hs.masked.applyAll switches)

/-- The kernel is asked for what the context says just when it is asked for both
sides or for neither. -/
theorem interest_faithful_iff (h : Handler) (s : Conn)
    (hrun : Path (Conn.step h) Any Conn.init s) (hok : ∀ c ∈ s.ctls, c.ok = true) :
    s.Faithful ↔ (s.interest.isSome → readEnabled s.events = writeEnabled s.events) := by
  have hinit : Conn.init.Mapped :=
    ⟨.inl rfl,fun _ => ⟨by simp [Conn.init,Context.init],by simp [Conn.init]⟩⟩
  have hs : s.Mapped := hrun.keeps (fun s op _ _ he hs => by
    cases he
    exact path_keeps (fun _ _ hst hi => hst.mapped hi) (exec_epoll op s) hs) hinit
  obtain ⟨hout,hin⟩ := hs.masked.epoll_bits
  have hmask := (hs.mirrors hok).mask
  refine ⟨fun hf hsome => ?_,fun hf mask hi => ?_⟩
  · obtain ⟨mask,hi⟩ := Option.isSome_iff_exists.mp hsome
    have hw := (hf mask hi).1
    rw [hmask mask hi,hout] at hw
    exact hw
  · rw [hmask mask hi,hout,hin]
    exact ⟨hf (by simp [hi]),rfl⟩

/-- A byte waits to be written, so both sides are asked for. -/
theorem interest_faithful_iff_queued : ∃ s : Conn, s.interest = some 7 ∧
    (s.Faithful ↔ (s.interest.isSome → readEnabled s.events = writeEnabled s.events)) := by
  have hrun : (run (Conn.step .all) Any Conn.init [.handleNewContext none .silent,
      .call (.send [1] (.accepts 0) none)]).any
      (fun s => s.interest = some 7 ∧ ∀ c ∈ s.ctls, c.ok = true) := by decide +kernel
  obtain ⟨s,hs,hcond⟩ := (Option.any_eq_true _ _).mp hrun
  obtain ⟨hi,hok⟩ := of_decide_eq_true hcond
  exact ⟨s,hi,interest_faithful_iff .all s (run_path hs) hok⟩

/-- A new connection with nothing to send is woken for writability. -/
theorem interest_unfaithful : ¬∀ (h : Handler) (s : Conn),
    Path (Conn.step h) Any Conn.init s → (∀ c ∈ s.ctls, c.ok = true) → s.Faithful := by
  intro hall
  have hrun : (run (Conn.step .all) Any Conn.init [.handleNewContext none .silent]).any
      (fun s => s.interest = some EVENT_READ ∧ (∀ c ∈ s.ctls, c.ok = true) ∧
        hasBits EVENT_READ EPOLLOUT ≠ writeEnabled s.events) := by decide +kernel
  obtain ⟨s,hs,hcond⟩ := (Option.any_eq_true _ _).mp hrun
  obtain ⟨hi,hok,hbad⟩ := of_decide_eq_true hcond
  exact hbad (hall .all s (run_path hs) hok _ hi).1

end FluentNet
