import FluentNet.Handler.Handler
import FluentNet.Library.Runs
set_option autoImplicit false

/-!
What one call can do to a connection. Every operation is a path of the steps of
`Micro`, so an invariant is checked once for each of them.
-/

namespace FluentNet
open Throwing Runs Relation

section Epoll
variable (ctl : CtlAnswer) (s : Conn)

def Conn.ctlCall (s : Conn) (ok : Bool) : CtlCall :=
  ⟨(updateEventState s.eState s.events).2,s.events,s.interest,ok⟩

/-- `updateEvents` moves `_eState` before it knows whether epoll agrees. -/
theorem updateEvents_cases :
    let next := updateEventState s.eState s.events
    (next.2.legal s.interest = true ∧ ctl = none ∧
      updateEvents ctl s = (.ok (),{ s with
        eState := next.1, interest := next.2.result s.events
        ctls := s.ctls ++ [s.ctlCall true] })) ∨
    (¬(next.2.legal s.interest = true ∧ ctl = none) ∧ ∃ err,
      updateEvents ctl s = (.error (.epollControlException err),{ s with
        eState := next.1, ctls := s.ctls ++ [s.ctlCall false] })) := by
  have hne := updateEventState_ne_none s.eState s.events
  simp only [updateEvents,Act.get_bind,Act.modify_bind,Act.onlyIf_true hne,Multiplexer.update]
  by_cases hl : (updateEventState s.eState s.events).2.legal s.interest = true
  · cases ctl with
    | none => simp [hl,Conn.ctlCall]
    | some err => simp [hl,Conn.ctlCall]
  · simp [hl,Conn.ctlCall]

/-- However epoll answers, only the registration and what mirrors it change. -/
theorem updateEvents_frame : ∃ interest ok, (updateEvents ctl s).2 = { s with
    eState := (updateEventState s.eState s.events).1, interest
    ctls := s.ctls ++ [s.ctlCall ok] } := by
  rcases updateEvents_cases ctl s with ⟨_,_,h⟩ | ⟨_,err,h⟩ <;> exact ⟨_,_,congrArg Prod.snd h⟩

end Epoll

def Conn.Left (s : Conn) : Prop := s.nState = .disconnecting ∨ s.nState = .disconnected

instance (s : Conn) : Decidable s.Left := inferInstanceAs (Decidable (_ ∨ _))

/-- The context once `send` has queued `rest` and before it arms `EVENT_WRITE`. -/
def Conn.queued (s : Conn) (taken rest : List UInt8) (output : Buffer) : Conn :=
  { s with
    wire := s.wire ++ taken
    output
    sendProvider := s.sendProvider ++ [rest.length]
    sendCurrentIndex := s.sendCurrentIndex+1 }

section Send
variable (buf : List UInt8) (ans : WriteAnswer) (ctl : CtlAnswer) (s : Conn)

theorem send_left (h : s.Left) : Context.send buf ans ctl s = (.ok ⟨Completion.INVALID⟩,s) := by
  have hg : ¬(s.nState ≠ .disconnecting ∧ s.nState ≠ .disconnected) := by
    rintro ⟨h1,h2⟩
    exact h.elim h1 h2
  simp [Context.send,hg]

theorem send_cases (h : ¬s.Left) :
    (∃ err, ans.Fatal err ∧ Context.send buf ans ctl s = (.error (.socketException err),s)) ∨
    ((∀ err, ¬ans.Fatal err) ∧ ans.taken buf = buf ∧
      Context.send buf ans ctl s =
        (.ok ⟨Completion.FAST_COMPLETE⟩,{ s with wire := s.wire ++ buf })) ∨
    ((∀ err, ¬ans.Fatal err) ∧ (ans.taken buf).length < buf.length ∧ ∃ e o,
      Buffer.append (ans.rest buf) s.output = (.error e,o) ∧
      Context.send buf ans ctl s =
        (.error e,{ s with wire := s.wire ++ ans.taken buf, output := o })) ∨
    ((∀ err, ¬ans.Fatal err) ∧ (ans.taken buf).length < buf.length ∧ ∃ o,
      Buffer.append (ans.rest buf) s.output = (.ok (),o) ∧
      Context.send buf ans ctl s =
        (Context.armWrite ctl >>= fun _ => pure ⟨s.sendCurrentIndex⟩)
          (s.queued (ans.taken buf) (ans.rest buf) o)) := by
  have hg : s.nState ≠ .disconnecting ∧ s.nState ≠ .disconnected := not_or.mp h
  simp only [Context.send,Act.get_bind,ne_eq,hg,not_false_eq_true,and_self,if_true]
  rcases Socket.write_cases buf ans s.wire with ⟨err,hf,hw⟩ | ⟨hf,hw⟩
  · refine .inl ⟨err,hf,?_⟩
    exact Act.bind_of_error (by simp [onWire,Act.zoom_apply,hw])
  · have hret : onWire (Socket.write buf ans) s =
        (.ok (ans.taken buf).length,{ s with wire := s.wire ++ ans.taken buf }) := by
      simp [onWire,Act.zoom_apply,hw]
    have hle := ans.taken_length_le buf
    rw [Act.bind_of_ok hret]
    by_cases hfull : (ans.taken buf).length = buf.length
    · have htaken := ans.taken_of_full hfull
      refine .inr (.inl ⟨hf,htaken,?_⟩)
      simp [htaken]
    · have hlt : (ans.taken buf).length < buf.length := by omega
      have hne : ¬((ans.taken buf).length : Int) = buf.length := by omega
      refine .inr (.inr ?_)
      rw [if_neg hne,Int.toNat_natCast]
      change (_ ∧ _ ∧ ∃ e o, _ ∧ Context.enqueue (ans.rest buf) ctl _ = _) ∨
        (_ ∧ _ ∧ ∃ o, _ ∧ Context.enqueue (ans.rest buf) ctl _ = _)
      cases ha : Buffer.append (ans.rest buf) s.output with
      | mk res o =>
        have ho : onOutput (Buffer.append (ans.rest buf)) { s with wire := s.wire ++ ans.taken buf } =
            (res,{ s with wire := s.wire ++ ans.taken buf, output := o }) := by
          rw [onOutput,Act.zoom_apply,ha]
        cases res with
        | error e => exact .inl ⟨hf,hlt,e,o,rfl,Act.bind_of_error ho⟩
        | ok u => exact .inr ⟨hf,hlt,o,rfl,Act.bind_of_ok ho⟩

end Send

theorem armWrite_cases (ctl : CtlAnswer) (s : Conn) :
    (writeEnabled s.events = true ∧ Context.armWrite ctl s = (.ok (),s)) ∨
    (writeEnabled s.events = false ∧ Context.armWrite ctl s =
      updateEvents ctl { s with events := s.events ||| EVENT_WRITE }) := by
  cases hw : writeEnabled s.events with
  | true => exact .inl ⟨rfl,by simp [Context.armWrite,hw]⟩
  | false => exact .inr ⟨rfl,by simp [Context.armWrite,hw]⟩

theorem shutdown_cases (s : Conn) :
    (s.nState ≠ .connected ∧ Context.shutdown s = (.ok (),s)) ∨
    (s.nState = .connected ∧ writeEnabled s.events = true ∧
      Context.shutdown s = (.ok (),{ s with
        nState := .disconnecting, deferred := s.deferred+1
        log := s.log ++ [.entered .disconnecting] })) ∨
    (s.nState = .connected ∧ writeEnabled s.events = false ∧
      Context.shutdown s = (.ok (),{ s with
        nState := .disconnecting
        log := s.log ++ [.entered .disconnecting,.shutWr s.output.unread] })) := by
  by_cases hc : s.nState = .connected
  · refine .inr ?_
    cases hw : writeEnabled s.events with
    | true => exact .inl ⟨hc,rfl,by simp [Context.shutdown,hc,enter,hw]⟩
    | false => exact .inr ⟨hc,rfl,by simp [Context.shutdown,hc,enter,hw,Socket.shutdown]⟩
  · exact .inl ⟨hc,by simp [Context.shutdown,hc]⟩

section LoopPass
variable (s : Conn)

theorem runPoll_left (h : s.nState ≠ .connected) : Context.runPoll s = (.ok (),s) := by
  simp only [Context.runPoll,Context.shutdownPoll,Act.bind_apply,Act.get]
  simp [h]

theorem runPoll_waits (h : s.nState = .connected) (hw : writeEnabled s.events = true) :
    Context.runPoll s = (.ok (),{ s with deferred := s.deferred+1 }) := by
  simp only [Context.runPoll,Context.shutdownPoll,Act.bind_apply,Act.get]
  simp [h,hw]

theorem runPoll_done (h : s.nState = .connected) (hw : writeEnabled s.events = false) :
    Context.runPoll s = (.ok (),{ s with log := s.log ++ [.shutWr s.output.unread] }) := by
  simp only [Context.runPoll,Context.shutdownPoll,Act.bind_apply,Act.get]
  simp [h,hw,Socket.shutdown]

theorem runPolls_left (n : Nat) (h : s.nState ≠ .connected) :
    Act.each (fun _ => Context.runPoll) (List.replicate n ()) s = (.ok (),s) := by
  induction n with
  | zero => rfl
  | succ n ih => exact (Act.bind_of_ok (runPoll_left s h)).trans ih

theorem runPolls_wait (n : Nat) (h : s.nState = .connected) (hw : writeEnabled s.events = true) :
    Act.each (fun _ => Context.runPoll) (List.replicate n ()) s =
      (.ok (),{ s with deferred := s.deferred+n }) := by
  induction n generalizing s with
  | zero => rfl
  | succ n ih =>
    have hn : s.deferred+1+n = s.deferred+(n+1) := by omega
    refine (Act.bind_of_ok (runPoll_waits s h hw)).trans ?_
    exact (ih { s with deferred := s.deferred+1 } h hw).trans (by rw [hn])

theorem runPolls_done (n : Nat) (h : s.nState = .connected) (hw : writeEnabled s.events = false) :
    Act.each (fun _ => Context.runPoll) (List.replicate n ()) s =
      (.ok (),{ s with log := s.log ++ List.replicate n (.shutWr s.output.unread) }) := by
  induction n generalizing s with
  | zero => simp [Act.each]
  | succ n ih =>
    refine (Act.bind_of_ok (runPoll_done s h hw)).trans ?_
    refine (ih { s with log := s.log ++ [.shutWr s.output.unread] } h hw).trans ?_
    simp [List.replicate_succ]

theorem loopPass_cases :
    (s.nState ≠ .connected ∧ Context.loopPass s = (.ok (),{ s with deferred := 0 })) ∨
    (s.nState = .connected ∧ writeEnabled s.events = true ∧ Context.loopPass s = (.ok (),s)) ∨
    (s.nState = .connected ∧ writeEnabled s.events = false ∧
      Context.loopPass s = (.ok (),{ s with
        deferred := 0, log := s.log ++ List.replicate s.deferred (.shutWr s.output.unread) })) := by
  by_cases hc : s.nState = .connected
  · refine .inr ?_
    cases hw : writeEnabled s.events with
    | true =>
      refine .inl ⟨hc,rfl,(runPolls_wait { s with deferred := 0 } s.deferred hc hw).trans ?_⟩
      simp only [Nat.zero_add]
    | false => exact .inr ⟨hc,rfl,runPolls_done { s with deferred := 0 } s.deferred hc hw⟩
  · exact .inl ⟨hc,runPolls_left { s with deferred := 0 } s.deferred hc⟩

end LoopPass

def Conn.drained (s : Conn) (taken : List UInt8) : Conn :=
  let next := completeSends taken.length s.sendProvider s.sendCompletedIndex
  { s with
    output := s.output.hasRead taken.length
    wire := s.wire ++ taken
    sendProvider := next.1
    sendCompletedIndex := next.2 }

theorem handleWrite_cases (ans : WriteAnswer) (ctl : CtlAnswer) (s : Conn) :
    (writeEnabled s.events = false ∧ Handler.handleWrite ans ctl s = (.ok (),s)) ∨
    (writeEnabled s.events = true ∧ ∃ err, ans.Fatal err ∧
      Handler.handleWrite ans ctl s = (.error (.writeException err),s)) ∨
    (writeEnabled s.events = true ∧ 0 < (ans.taken s.output.content).length ∧
      (s.drained (ans.taken s.output.content)).output.unread = 0 ∧
      Handler.handleWrite ans ctl s = updateEvents ctl
        { s.drained (ans.taken s.output.content) with events := disableWrite s.events }) ∨
    (writeEnabled s.events = true ∧
      ¬(0 < (ans.taken s.output.content).length ∧
        (s.drained (ans.taken s.output.content)).output.unread = 0) ∧
      Handler.handleWrite ans ctl s = (.ok (),s.drained (ans.taken s.output.content))) := by
  cases hw : writeEnabled s.events with
  | false => exact .inl ⟨rfl,by simp [Handler.handleWrite,hw]⟩
  | true =>
    refine .inr ?_
    simp only [Handler.handleWrite,Act.get_bind,Act.onlyIf_true hw]
    rcases Buffer.writeTo_cases ans s.output s.wire with ⟨err,hf,he⟩ | he
    · refine .inl ⟨trivial,err,hf,Act.bind_of_error ?_⟩
      rw [onOutputWire,Act.zoom_apply,he]
    · have ho : onOutputWire (Buffer.writeTo ans) s =
          (.ok (ans.taken s.output.content).length,{ s with
            output := s.output.hasRead (ans.taken s.output.content).length
            wire := s.wire ++ ans.taken s.output.content }) := by
        rw [onOutputWire,Act.zoom_apply,he]
      rw [Act.bind_of_ok ho]
      simp only [Handler.handleWriteComplete,Act.modify_bind,Act.get_bind,Int.toNat_natCast]
      by_cases hd : 0 < (ans.taken s.output.content).length ∧
          (s.drained (ans.taken s.output.content)).output.unread = 0
      · refine .inr (.inl ⟨trivial,hd.1,hd.2,?_⟩)
        have hd' : ((ans.taken s.output.content).length : Int) > 0 ∧
            (s.output.hasRead (ans.taken s.output.content).length).unread = 0 :=
          ⟨by have h1 := hd.1; omega,hd.2⟩
        rw [Act.onlyIf_true hd']
        simp [Handler.disarmWrite,hw,Conn.drained]
      · refine .inr (.inr ⟨trivial,hd,?_⟩)
        have hd' : ¬(((ans.taken s.output.content).length : Int) > 0 ∧
            (s.output.hasRead (ans.taken s.output.content).length).unread = 0) := by
          rintro ⟨h1,h2⟩
          exact hd ⟨by omega,h2⟩
        rw [Act.onlyIf_false hd']
        rfl

structure Conn.SameLife (s t : Conn) : Prop where
  nState : t.nState = s.nState
  log : t.log = s.log
  eof : t.eof = s.eof
  deferred : t.deferred = s.deferred

theorem updateEvents_life (ctl : CtlAnswer) (s : Conn) :
    s.SameLife (updateEvents ctl s).2 := by
  rcases updateEvents_cases ctl s with ⟨-,-,h⟩ | ⟨-,err,h⟩ <;> rw [h] <;> constructor <;> rfl

theorem armWrite_life (ctl : CtlAnswer) (s : Conn) :
    s.SameLife (Context.armWrite ctl s).2 := by
  rcases armWrite_cases ctl s with ⟨-,h⟩ | ⟨-,h⟩ <;> rw [h]
  · constructor <;> rfl
  · obtain ⟨h1,h2,h3,h4⟩ := updateEvents_life ctl { s with events := s.events ||| EVENT_WRITE }
    exact ⟨h1,h2,h3,h4⟩

theorem bind_pure_state {α β : Type} (m : ConnAct α) (f : α → β) (s : Conn) :
    ((m >>= fun a => pure (f a)) s).2 = (m s).2 := by
  rw [Act.bind_apply]
  cases m s with
  | mk res t => cases res <;> rfl

theorem send_life (buf : List UInt8) (ans : WriteAnswer) (ctl : CtlAnswer) (s : Conn) :
    s.SameLife (Context.send buf ans ctl s).2 := by
  by_cases hl : s.Left
  · rw [send_left _ _ _ _ hl]
    constructor <;> rfl
  · rcases send_cases buf ans ctl s hl with ⟨_,_,h⟩ | ⟨_,_,h⟩ | ⟨_,_,_,o,_,h⟩ | ⟨_,_,o,_,h⟩ <;> rw [h]
    · constructor <;> rfl
    · constructor <;> rfl
    · constructor <;> rfl
    · rw [bind_pure_state]
      obtain ⟨h1,h2,h3,h4⟩ := armWrite_life ctl (s.queued (ans.taken buf) (ans.rest buf) o)
      exact ⟨h1,h2,h3,h4⟩

theorem handleWrite_life (ans : WriteAnswer) (ctl : CtlAnswer) (s : Conn) :
    s.SameLife (Handler.handleWrite ans ctl s).2 := by
  rcases handleWrite_cases ans ctl s with ⟨_,h⟩ | ⟨_,_,_,h⟩ | ⟨_,_,_,h⟩ | ⟨_,_,h⟩ <;> rw [h]
  · constructor <;> rfl
  · constructor <;> rfl
  · obtain ⟨h1,h2,h3,h4⟩ := updateEvents_life ctl
      { s.drained (ans.taken s.output.content) with events := disableWrite s.events }
    exact ⟨h1,h2,h3,h4⟩
  · constructor <;> rfl

theorem unwatch_life {ctl : CtlAnswer} {s t : Conn} {r : Except Exn Unit}
    (h : Handler.unwatch ctl s = (r,t)) : s.SameLife t := by
  obtain ⟨h1,h2,h3,h4⟩ := updateEvents_life ctl
    { s with events := disableWrite (disableRead s.events) }
  have ht : t = (updateEvents ctl { s with events := disableWrite (disableRead s.events) }).2 :=
    (congrArg Prod.snd h).symm
  rw [ht]
  exact ⟨h1,h2,h3,h4⟩

def Conn.opened (s : Conn) : Conn :=
  { s with
    nState := .connected
    log := s.log ++ [.entered .connected]
    events := enableRead s.events }

theorem handleNewContext_cases (h : Handler) (ctl : CtlAnswer) (cb : Callback) (s : Conn) :
    (∃ e t, updateEvents ctl s.opened = (.error e,t) ∧
      h.handleNewContext ctl cb s = (.ok (),{ t with exception := some e })) ∨
    (∃ t, updateEvents ctl s.opened = (.ok (),t) ∧
      h.handleNewContext ctl cb s = Act.attempt (Act.onlyIf h.connectFlag (do
        record .connect
        cb.exec)) Handler.catchException t) := by
  have hopen : h.handleNewContext ctl cb s = Act.attempt (do
      updateEvents ctl
      Act.onlyIf h.connectFlag (do
        record .connect
        cb.exec)) Handler.catchException s.opened := rfl
  rw [hopen]
  cases hu : updateEvents ctl s.opened with
  | mk res t =>
    cases res with
    | error e => exact .inl ⟨e,t,rfl,by rw [Act.attempt,Act.bind_of_error hu]; rfl⟩
    | ok _ => exact .inr ⟨t,rfl,by rw [Act.attempt,Act.bind_of_ok hu]; rfl⟩

theorem begun_cases (h : Handler) (ctl : CtlAnswer) :
    (∃ err, ctl = some err ∧ h.begun ctl = { Conn.init.opened with
      eState := .added, ctls := [Conn.init.opened.ctlCall false], exception := some (.epollControlException err) }) ∨
    (ctl = none ∧ h.begun ctl = { Conn.init.opened with
      eState := .added, interest := some EVENT_READ, ctls := [Conn.init.opened.ctlCall true]
      log := .entered .connected :: if h.connectFlag then [.connect] else [] }) := by
  cases ctl with
  | some err => exact .inl ⟨err,rfl,rfl⟩
  | none =>
    refine .inr ⟨rfl,?_⟩
    obtain ⟨connectFlag,_,_⟩ := h
    cases connectFlag <;> rfl

def Conn.closed (h : Handler) (s : Conn) : Conn :=
  { s with
    nState := .disconnected
    log := s.log ++ .entered .disconnected :: if h.closeFlag then [.close] else [] }

theorem shutdown_disconnecting {s : Conn} (hs : s.nState = .connected ∨ s.nState = .disconnecting) :
    (Context.shutdown s).1 = .ok () ∧ (Context.shutdown s).2.nState = .disconnecting ∧
      (Context.shutdown s).2.eof = s.eof := by
  rcases shutdown_cases s with ⟨hn,he⟩ | ⟨_,_,he⟩ | ⟨_,_,he⟩ <;> rw [he]
  · exact ⟨rfl,hs.resolve_left hn,rfl⟩
  · exact ⟨rfl,rfl,rfl⟩
  · exact ⟨rfl,rfl,rfl⟩

theorem handleClose_cases (h : Handler) (env : CloseEnv) (s : Conn) :
    (¬(s.nState = .connected ∨ s.nState = .disconnecting) ∧ h.handleClose env s = (.ok (),s)) ∨
    ((s.nState = .connected ∨ s.nState = .disconnecting) ∧ ∃ e t,
      Handler.unwatch env.ctl (Context.shutdown s).2 = (.error e,t) ∧
      h.handleClose env s = (.error e,t)) ∨
    ((s.nState = .connected ∨ s.nState = .disconnecting) ∧ ∃ t,
      Handler.unwatch env.ctl (Context.shutdown s).2 = (.ok (),t) ∧
      h.handleClose env s = Act.onlyIf h.closeFlag env.callback.exec (t.closed h)) := by
  simp only [Handler.handleClose,Act.get_bind]
  by_cases hs : s.nState = .connected ∨ s.nState = .disconnecting
  · refine .inr ?_
    rw [Act.onlyIf_true hs,Act.bind_of_ok (Prod.ext (shutdown_disconnecting hs).1 rfl)]
    cases hu : Handler.unwatch env.ctl (Context.shutdown s).2 with
    | mk res t =>
    cases res with
    | error e => exact .inl ⟨hs,e,t,rfl,Act.bind_of_error hu⟩
    | ok _ =>
      refine .inr ⟨hs,t,rfl,(Act.bind_of_ok hu).trans ?_⟩
      simp only [enter,record,Act.modify_bind]
      cases hf : h.closeFlag <;> simp [Conn.closed,hf]
  · rw [Act.onlyIf_false hs]
    exact .inl ⟨hs,rfl⟩

/-- The steps every operation on a connected context is made of. The proposition
`strict` says that the kernel keeps to its word: no data after the end of the
stream, and no close before it. -/
inductive Micro (h : Handler) (strict : Prop) : Conn → Conn → Prop
  | send {s : Conn} (buf : List UInt8) (ans : WriteAnswer) (ctl : CtlAnswer) :
      Micro h strict s (Context.send buf ans ctl s).2
  | shutdown {s : Conn} : Micro h strict s (Context.shutdown s).2
  | loopPass {s : Conn} : Micro h strict s (Context.loopPass s).2
  | write {s : Conn} (ans : WriteAnswer) (ctl : CtlAnswer) :
      Micro h strict s (Handler.handleWrite ans ctl s).2
  | read {s : Conn} (ans : ReadAnswer) : Micro h strict s (Handler.readInput ans s).2
  | hangUp {s : Conn} : Micro h strict s { s with eof := true }
  | message {s : Conn} : h.messageFlag = true → (strict → s.eof = false) →
      Micro h strict s { s with log := s.log ++ [.message] }
  | unwatch {s t : Conn} (ctl : CtlAnswer) (e : Exn) : s.nState = .disconnecting →
      Handler.unwatch ctl s = (.error e,t) → Micro h strict s t
  | close {s t : Conn} (ctl : CtlAnswer) : s.nState = .disconnecting → (strict → s.eof = true) →
      Handler.unwatch ctl s = (.ok (),t) → Micro h strict s (t.closed h)
  | caught {s : Conn} (e : Exn) : Micro h strict s { s with exception := some e }

section Callbacks
variable {r : Conn → Conn → Prop}

theorem userCall_follows (hsend : ∀ buf ans ctl, Follows r (Context.send buf ans ctl))
    (hshutdown : Follows r Context.shutdown) (c : UserCall) : Follows r c.exec := by
  cases c with
  | send buf ans ctl => exact ((hsend buf ans ctl).bind (fun _ => .pure ())).attempt (fun _ => .pure ())
  | shutdown => exact hshutdown

theorem callback_follows (hsend : ∀ buf ans ctl, Follows r (Context.send buf ans ctl))
    (hshutdown : Follows r Context.shutdown) (cb : Callback) : Follows r cb.exec := by
  refine (Follows.each (userCall_follows hsend hshutdown) cb.calls).bind (fun _ => ?_)
  cases cb.throws with
  | none => exact .pure ()
  | some e => exact .throw e

end Callbacks

section Paths
variable {h : Handler} {strict : Prop}

theorem send_follows (buf : List UInt8) (ans : WriteAnswer) (ctl : CtlAnswer) :
    Follows (Micro h strict) (Context.send buf ans ctl) := fun _ => .single (.send buf ans ctl)

theorem shutdown_follows : Follows (Micro h strict) Context.shutdown := fun _ => .single .shutdown

theorem callback_path (cb : Callback) : Follows (Micro h strict) cb.exec :=
  callback_follows send_follows shutdown_follows cb

theorem handleNewContext_path (ctl : CtlAnswer) (cb : Callback) :
    ReflTransGen (Micro h strict) (h.begun ctl) (h.handleNewContext ctl cb Conn.init).2 := by
  have hcatch : ∀ e, Follows (Micro h strict) (Handler.catchException e) :=
    fun e => .modify (fun _ => .caught e)
  rw [Handler.begun]
  rcases handleNewContext_cases h ctl .silent Conn.init with ⟨e,t,hu,hs⟩ | ⟨t,hu,hs⟩ <;>
    rcases handleNewContext_cases h ctl cb Conn.init with ⟨e',t',hu',hs'⟩ | ⟨t',hu',hs'⟩ <;>
    rw [hu] at hu' <;> cases hu' <;> rw [hs,hs']
  cases h.connectFlag
  · exact .refl
  · exact attempt_path (callback_path cb _) hcatch

theorem handleClose_path (env : CloseEnv) {s : Conn} (heof : strict → s.eof = true) :
    ReflTransGen (Micro h strict) s (h.handleClose env s).2 := by
  rcases handleClose_cases h env s with ⟨_,he⟩ | ⟨hs,e,t,hu,he⟩ | ⟨hs,t,hu,he⟩
  · rw [he]
  · rw [he]
    obtain ⟨_,hn,_⟩ := shutdown_disconnecting hs
    exact (ReflTransGen.single .shutdown).tail (.unwatch env.ctl e hn hu)
  · rw [he]
    obtain ⟨_,hn,heq⟩ := shutdown_disconnecting hs
    have hclose : ReflTransGen (Micro h strict) s (t.closed h) :=
      (ReflTransGen.single .shutdown).tail
        (.close env.ctl hn (fun hst => heq.trans (heof hst)) hu)
    exact hclose.trans (Follows.onlyIf (fun _ => callback_path env.callback) _)

def ReadAnswer.NoData (ans : ReadAnswer) : Prop := ∀ bytes, ans = .data bytes → bytes = []

instance (ans : ReadAnswer) : Decidable ans.NoData :=
  match ans with
  | .data bytes => decidable_of_iff (bytes = []) (by simp [ReadAnswer.NoData])
  | .fails _ => .isTrue nofun

theorem readFrom_cases (bytes : List UInt8) (b : Buffer) :
    (∃ i e, Buffer.readFrom (.data bytes) b = (.error e,i) ∧ bytes ≠ []) ∨
    (∃ i, ∃ n : Nat, Buffer.readFrom (.data bytes) b = (.ok n,i) ∧ (n = 0 ↔ bytes = [])) := by
  have hpos := Buffer.LOCAL_SIZE_pos
  generalize hgot : bytes.take (b.unwrite.toNat+Buffer.LOCAL_SIZE) = got
  have hn : got.length = 0 ↔ bytes = [] := by
    rw [List.length_eq_zero_iff,← hgot,List.take_eq_nil_iff]
    exact ⟨fun hb => hb.resolve_left (by omega),.inr⟩
  have hread : Buffer.readFrom (.data bytes) b =
      (Buffer.store b.unwrite got >>= fun _ => pure (got.length : Int)) b := by
    rw [Buffer.readFrom,Act.get_bind,hgot]
  cases hst : Buffer.store b.unwrite got b with
  | mk res i =>
    cases res with
    | error e =>
      refine .inl ⟨i,e,hread.trans (Act.bind_of_error hst),fun hb => ?_⟩
      rw [Buffer.store,if_pos (hn.mpr hb)] at hst
      cases hst
    | ok u => exact .inr ⟨i,got.length,hread.trans (Act.bind_of_ok hst),hn⟩

theorem onInput_of {α : Type} {m : Act Exn Buffer α} {s : Conn} {r : Except Exn α} {i : Buffer}
    (h : m s.input = (r,i)) : onInput m s = (r,{ s with input := i }) := by
  rw [onInput,Act.zoom_apply,h]

theorem readInput_cases (ans : ReadAnswer) (s : Conn) :
    (∃ i e, Handler.readInput ans s = (.error e,{ s with input := i }) ∧ ans ≠ .data []) ∨
    (∃ i n, Handler.readInput ans s = (.ok n,{ s with input := i, eof := s.eof || n == 0 }) ∧
      (ans.NoData → n ≤ 0) ∧ (n = 0 ↔ ans = .data [])) := by
  cases ans with
  | fails err => exact .inr ⟨s.input,-1,rfl,by simp,by simp⟩
  | data bytes =>
    rcases readFrom_cases bytes s.input with ⟨i,e,hr,hb⟩ | ⟨i,n,hr,hn⟩
    · exact .inl ⟨i,e,Act.bind_of_error (onInput_of hr),by simpa using hb⟩
    · refine .inr ⟨i,n,Act.bind_of_ok (onInput_of hr),fun hnd => ?_,?_⟩
      · have h0 := hn.mpr (hnd bytes rfl)
        omega
      · rw [ReadAnswer.data.injEq,← hn]
        omega

theorem readInput_path (ans : ReadAnswer) (s : Conn) :
    ReflTransGen (Micro h strict) s (Handler.readInput ans s).2 := .single (.read ans)

theorem handleRead_path (env : EventEnv) {s : Conn}
    (hq : strict → s.eof = true → env.read.NoData) :
    ReflTransGen (Micro h strict) s (h.handleRead env s).2 := by
  refine bind_path (readInput_path env.read s) (fun n t ht => ?_)
  rcases readInput_cases env.read s with ⟨i,e,hr,_⟩ | ⟨i,m,hr,hnd,_⟩
  · rw [hr] at ht
    cases ht
  · rw [hr] at ht
    cases ht
    split
    · rename_i hpos
      by_cases hf : h.messageFlag = true
      · have heof : strict → (s.eof || n == 0) = false := by
          intro hst
          have hm : (n == 0) = false := by simp; omega
          cases hs : s.eof with
          | false => simp [hm]
          | true =>
            have hle := hnd (hq hst hs)
            omega
        rw [Act.onlyIf_true hf,record,Act.modify_bind]
        exact .head (.message hf heof) (callback_path env.message _)
      · rw [Act.onlyIf_false hf]
        exact .refl
    · split
      · rename_i hz
        exact handleClose_path env.fin (fun _ => by simp [hz])
      · exact Follows.onlyIf (fun _ => .throw _) _

/-- While an event is handled the kernel keeps to what it reported before it or
with it. -/
def Conn.Quiet (s : Conn) (revent : EventBitmap) (env : EventEnv) : Prop :=
  s.eof = true ∨ Handler.hungUp revent = true → env.read.NoData

instance (s : Conn) (revent : EventBitmap) (env : EventEnv) : Decidable (s.Quiet revent env) :=
  inferInstanceAs (Decidable (_ → _))

theorem write_follows (ans : WriteAnswer) (ctl : CtlAnswer) :
    Follows (Micro h strict) (Handler.handleWrite ans ctl) := fun _ => .single (.write ans ctl)

theorem handleRead_onward {revent : EventBitmap} {env : EventEnv} {s : Conn}
    (hq : strict → s.eof = true → env.read.NoData) :
    ReflTransGen (Micro h strict) s
      ((do
        Act.onlyIf (hasBits revent (POLLERR ||| POLLNVAL)) Handler.handleError
        Act.onlyIf (hasBits revent (POLLIN ||| POLLPRI ||| POLLRDHUP)) (h.handleRead env)
        Act.onlyIf (hasBits revent POLLOUT) (Handler.handleWrite env.write env.ctl)
        : ConnAct Unit) s).2 := by
  have hw : Follows (Micro h strict)
      (Act.onlyIf (hasBits revent POLLOUT) (Handler.handleWrite env.write env.ctl)) :=
    .onlyIf (fun _ => write_follows env.write env.ctl)
  by_cases herr : hasBits revent (POLLERR ||| POLLNVAL) = true
  · rw [Act.onlyIf_true herr]
    exact .refl
  · rw [Act.onlyIf_false herr]
    refine bind_path .refl (fun _ t ht => ?_)
    cases ht
    by_cases hr : hasBits revent (POLLIN ||| POLLPRI ||| POLLRDHUP) = true
    · rw [Act.onlyIf_true hr]
      exact bind_path (handleRead_path env hq) (fun _ t _ => hw t)
    · rw [Act.onlyIf_false hr]
      exact hw s

theorem dispatch_path (revent : EventBitmap) (env : EventEnv) {s : Conn}
    (hq : strict → s.Quiet revent env) :
    ReflTransGen (Micro h strict) s (h.dispatch revent env s).2 := by
  have hcatch : ∀ e, Follows (Micro h strict) (Handler.catchException e) :=
    fun e => .modify (fun _ => .caught e)
  simp only [Handler.dispatch,Act.modify_bind]
  by_cases hup : Handler.hungUp revent = true
  · simp only [hup,Bool.or_true]
    refine .head .hangUp (attempt_path ?_ hcatch)
    rw [Handler.handleEvent,Act.onlyIf_true hup]
    refine bind_path (handleClose_path env.hup (fun _ => rfl)) (fun _ t _ => ?_)
    exact handleRead_onward (fun hst _ => hq hst (.inr hup))
  · have hup' : Handler.hungUp revent = false := by simpa using hup
    simp only [hup',Bool.or_false]
    refine attempt_path ?_ hcatch
    rw [Handler.handleEvent,Act.onlyIf_false hup]
    exact handleRead_onward (fun hst heof => hq hst (.inl heof))

def Op.Running : Op → Prop
  | .handleNewContext _ _ | .interest _ _ => False
  | _ => True

def Op.Quiet (s : Conn) : Op → Prop
  | .event revent env => s.Quiet revent env
  | .handleClose _ => s.eof = true
  | _ => True

theorem exec_path {op : Op} (hop : op.Running) {s : Conn} (hq : strict → op.Quiet s) :
    ReflTransGen (Micro h strict) s (op.exec h s).2 := by
  cases op with
  | handleNewContext => exact hop.elim
  | call c => exact userCall_follows send_follows shutdown_follows c s
  | handleWrite ans ctl => exact .single (.write ans ctl)
  | handleClose env => exact handleClose_path env hq
  | event revent env => exact dispatch_path revent env hq
  | loopPass => exact .single .loopPass
  | interest => exact hop.elim

theorem ops_path {C : Conn → Op → Prop}
    (hC : ∀ s op, C s op → op.Running ∧ (strict → op.Quiet s)) {s t : Conn}
    (hrun : Path (Conn.step h) C s t) : ReflTransGen (Micro h strict) s t := by
  induction hrun with
  | refl => exact .refl
  | tail _ hstep ih =>
    obtain ⟨op,hop,he⟩ := hstep
    cases he
    exact ih.trans (exec_path (hC _ _ hop).1 (hC _ _ hop).2)

end Paths

theorem Micro.rank {h : Handler} {strict : Prop} {s t : Conn} (hm : Micro h strict s t) :
    s.nState.rank ≤ t.nState.rank := by
  cases hm with
  | send buf ans ctl => exact Nat.le_of_eq (congrArg _ (send_life buf ans ctl s).nState.symm)
  | shutdown =>
    rcases shutdown_cases s with ⟨_,he⟩ | ⟨hc,_,he⟩ | ⟨hc,_,he⟩
    · exact Nat.le_of_eq (by rw [he])
    · simp [he,hc,NetworkState.rank]
    · simp [he,hc,NetworkState.rank]
  | loopPass =>
    rcases loopPass_cases s with ⟨_,he⟩ | ⟨_,_,he⟩ | ⟨_,_,he⟩ <;> exact Nat.le_of_eq (by rw [he])
  | write ans ctl => exact Nat.le_of_eq (congrArg _ (handleWrite_life ans ctl s).nState.symm)
  | read ans =>
    rcases readInput_cases ans s with ⟨i,e,he,_⟩ | ⟨i,n,he,_⟩ <;> exact Nat.le_of_eq (by rw [he])
  | unwatch ctl e _ hu => exact Nat.le_of_eq (congrArg _ (unwatch_life hu).nState.symm)
  | close ctl hd => simp [hd,Conn.closed,NetworkState.rank]
  | hangUp => exact Nat.le_refl _
  | message => exact Nat.le_refl _
  | caught => exact Nat.le_refl _

end FluentNet
