import FluentNet.Handler.Stream
import FluentNet.Handler.Rejected
set_option autoImplicit false

/-! The bytes on their way through a connection whose fd epoll knows of. -/

namespace FluentNet
open Throwing Outbox

section Registered
variable {ctl : CtlAnswer} {s : Conn}

theorem updateEvents_registered (he : s.eState = .added) (hi : s.interest.isSome)
    (hn : s.events ≠ EVENT_NONE) : (updateEvents ctl s).2.interest.isSome := by
  have hnext : updateEventState s.eState s.events = (.added,.mod) := by simp [updateEventState,he,hn]
  rcases updateEvents_cases ctl s with ⟨_,_,hu⟩ | ⟨_,_,hu⟩ <;> rw [hu]
  · simp [hnext,EpollOperationHint.result]
  · exact hi

structure Stream.Linked (p : Stream) : Prop where
  inv : p.Inv
  interest : p.conn.interest.isSome

variable {p : Stream}

theorem Stream.Linked.open (hp : p.Linked) : ¬p.conn.Left := by simp [Conn.Left,hp.inv.nState]

theorem send_linked (hp : p.Linked) {buf : List UInt8} {ans : WriteAnswer} (hturn : p.InTurn (.send buf ans ctl)) :
    Stream.Linked ⟨(Context.send buf ans ctl p.conn).2,
      p.accepted ++ acceptedBy buf (Context.send buf ans ctl p.conn).1⟩ := by
  refine ⟨send_inv hp.inv hturn,?_⟩
  rcases send_cases buf ans ctl p.conn hp.open with ⟨_,_,he⟩ | ⟨_,_,he⟩ | ⟨_,_,_,o,_,he⟩ | ⟨_,_,o,_,he⟩ <;> rw [he]
  · exact hp.interest
  · exact hp.interest
  · exact hp.interest
  · rw [bind_pure_state]
    rcases armWrite_cases ctl (p.conn.queued (ans.taken buf) (ans.rest buf) o) with ⟨_,ha⟩ | ⟨_,ha⟩ <;> rw [ha]
    · exact hp.interest
    · have hr : readEnabled (p.conn.events ||| EVENT_WRITE) = true := by simp [hp.inv.reads]
      exact updateEvents_registered (s := { p.conn.queued (ans.taken buf) (ans.rest buf) o with
        events := p.conn.events ||| EVENT_WRITE }) hp.inv.eState hp.interest (ne_none_of_readEnabled hr)

theorem write_linked (hp : p.Linked) (ans : WriteAnswer) (ctl : CtlAnswer) :
    Stream.Linked ⟨(Handler.handleWrite ans ctl p.conn).2,p.accepted⟩ := by
  refine ⟨write_inv hp.inv ans ctl,?_⟩
  rcases handleWrite_cases ans ctl p.conn with ⟨_,hs⟩ | ⟨_,_,_,hs⟩ | ⟨_,_,_,hs⟩ | ⟨_,_,hs⟩ <;> rw [hs]
  · exact hp.interest
  · exact hp.interest
  · have hr : readEnabled (disableWrite p.conn.events) = true := by simp [hp.inv.reads]
    exact updateEvents_registered (s := { p.conn.drained (ans.taken p.conn.output.content) with
      events := disableWrite p.conn.events }) hp.inv.eState hp.interest (ne_none_of_readEnabled hr)
  · exact hp.interest

end Registered

section Frames
variable {s : Conn}

theorem send_accepts {buf : List UInt8} {ans : WriteAnswer} {ctl : CtlAnswer} {c : Completion} {t : Conn}
    (hl : ¬s.Left) (ht : s.sendCurrentIndex ≠ Completion.INVALID) (h : Context.send buf ans ctl s = (.ok c,t)) :
    acceptedBy buf (.ok c : Except Exn Completion) = buf := by
  refine if_neg ?_
  rcases send_cases buf ans ctl s hl with ⟨_,_,he⟩ | ⟨_,_,he⟩ | ⟨_,_,_,o,_,he⟩ | ⟨_,_,o,_,he⟩ <;>
    rw [h] at he
  · cases he
  · cases he
    decide
  · cases he
  · rw [Act.bind_apply] at he
    cases ha : Context.armWrite ctl (s.queued (ans.taken buf) (ans.rest buf) o) with
    | mk res u =>
      rw [ha] at he
      cases res with
      | error e => cases he
      | ok _ =>
        cases he
        exact ht

structure Conn.SameBytes (s t : Conn) : Prop where
  wire : t.wire = s.wire
  input : t.input = s.input
  output : t.output = s.output

theorem updateEvents_bytes (ctl : CtlAnswer) (s : Conn) : s.SameBytes (updateEvents ctl s).2 := by
  obtain ⟨_,_,hu⟩ := updateEvents_frame ctl s
  rw [hu]
  constructor <;> rfl

theorem armWrite_bytes (ctl : CtlAnswer) (s : Conn) : s.SameBytes (Context.armWrite ctl s).2 := by
  rcases armWrite_cases ctl s with ⟨_,ha⟩ | ⟨_,ha⟩ <;> rw [ha]
  · constructor <;> rfl
  · obtain ⟨h1,h2,h3⟩ := updateEvents_bytes ctl { s with events := s.events ||| EVENT_WRITE }
    exact ⟨h1,h2,h3⟩

theorem send_input (buf : List UInt8) (ans : WriteAnswer) (ctl : CtlAnswer) (s : Conn) :
    (Context.send buf ans ctl s).2.input = s.input := by
  by_cases hl : s.Left
  · rw [send_left _ _ _ _ hl]
  · rcases send_cases buf ans ctl s hl with ⟨_,_,he⟩ | ⟨_,_,he⟩ | ⟨_,_,_,o,_,he⟩ | ⟨_,_,o,_,he⟩ <;> rw [he]
    rw [bind_pure_state]
    exact (armWrite_bytes ctl (s.queued (ans.taken buf) (ans.rest buf) o)).input

theorem send_wire (buf : List UInt8) (ans : WriteAnswer) (ctl : CtlAnswer) (s : Conn) :
    ∃ more, (Context.send buf ans ctl s).2.wire = s.wire ++ more := by
  by_cases hl : s.Left
  · rw [send_left _ _ _ _ hl]
    exact ⟨[],(List.append_nil _).symm⟩
  · rcases send_cases buf ans ctl s hl with ⟨_,_,he⟩ | ⟨_,_,he⟩ | ⟨_,_,_,o,_,he⟩ | ⟨_,_,o,_,he⟩ <;> rw [he]
    · exact ⟨[],(List.append_nil _).symm⟩
    · exact ⟨_,rfl⟩
    · exact ⟨_,rfl⟩
    · rw [bind_pure_state,(armWrite_bytes ctl (s.queued (ans.taken buf) (ans.rest buf) o)).wire]
      exact ⟨_,rfl⟩

theorem handleWrite_wire (ans : WriteAnswer) (ctl : CtlAnswer) (s : Conn) :
    ∃ more, (Handler.handleWrite ans ctl s).2.wire = s.wire ++ more := by
  rcases handleWrite_cases ans ctl s with ⟨_,he⟩ | ⟨_,_,_,he⟩ | ⟨_,_,_,he⟩ | ⟨_,_,he⟩ <;> rw [he]
  · exact ⟨[],(List.append_nil _).symm⟩
  · exact ⟨[],(List.append_nil _).symm⟩
  · rw [(updateEvents_bytes ctl { s.drained (ans.taken s.output.content) with events := disableWrite s.events }).wire]
    exact ⟨_,rfl⟩
  · exact ⟨_,rfl⟩

theorem handleWrite_input (ans : WriteAnswer) (ctl : CtlAnswer) (s : Conn) :
    (Handler.handleWrite ans ctl s).2.input = s.input := by
  rcases handleWrite_cases ans ctl s with ⟨_,he⟩ | ⟨_,_,_,he⟩ | ⟨_,_,_,he⟩ | ⟨_,_,he⟩ <;> rw [he]
  · exact (updateEvents_bytes ctl
      { s.drained (ans.taken s.output.content) with events := disableWrite s.events }).input
  · rfl

theorem shutdown_bytes (s : Conn) : s.SameBytes (Context.shutdown s).2 := by
  rcases shutdown_cases s with ⟨_,he⟩ | ⟨_,_,he⟩ | ⟨_,_,he⟩ <;> rw [he] <;> constructor <;> rfl

theorem loopPass_bytes (s : Conn) : s.SameBytes (Context.loopPass s).2 := by
  rcases loopPass_cases s with ⟨_,he⟩ | ⟨_,_,he⟩ | ⟨_,_,he⟩ <;> rw [he] <;> constructor <;> rfl

theorem handleClose_bytes (h : Handler) (env : CloseEnv) (s : Conn) : s.SameBytes (h.handleClose env s).2 := by
  obtain ⟨h1,h2,h3⟩ := shutdown_bytes s
  obtain ⟨g1,g2,g3⟩ := updateEvents_bytes env.ctl { (Context.shutdown s).2 with
    events := disableWrite (disableRead (Context.shutdown s).2.events) }
  have hunwatch : s.SameBytes (Handler.unwatch env.ctl (Context.shutdown s).2).2 :=
    ⟨g1.trans h1,g2.trans h2,g3.trans h3⟩
  rcases handleClose_closes (h := h) env s with he | ⟨e,t,ht,he⟩ | ⟨t,ht,he⟩ <;> rw [he]
  · constructor <;> rfl
  · rwa [ht] at hunwatch
  · rw [ht] at hunwatch
    exact ⟨hunwatch.wire,hunwatch.input,hunwatch.output⟩

theorem write_bytes (ans : WriteAnswer) (ctl : CtlAnswer) (s : Conn) (hw : s.output.Wf) :
    (Handler.handleWrite ans ctl s).2.output.Wf ∧
      (Handler.handleWrite ans ctl s).2.wire ++ (Handler.handleWrite ans ctl s).2.output.content =
        s.wire ++ s.output.content := by
  have hle : ((ans.taken s.output.content).length : Int) ≤ s.output.unread := by
    have h1 := ans.taken_length_le s.output.content
    have h2 := hw.content_length
    omega
  have hmove : (s.drained (ans.taken s.output.content)).wire ++
      (s.drained (ans.taken s.output.content)).output.content = s.wire ++ s.output.content := by
    simp only [Conn.drained,hw.hasRead_content hle,List.append_assoc]
    rw [← WriteAnswer.rest,ans.taken_append_rest]
  rcases handleWrite_cases ans ctl s with ⟨_,he⟩ | ⟨_,_,_,he⟩ | ⟨_,_,_,he⟩ | ⟨_,_,he⟩ <;> rw [he]
  · exact ⟨hw,rfl⟩
  · exact ⟨hw,rfl⟩
  · obtain ⟨h1,_,h3⟩ := updateEvents_bytes ctl
      { s.drained (ans.taken s.output.content) with events := disableWrite s.events }
    rw [h1,h3]
    exact ⟨hw.hasRead hle,hmove⟩
  · exact ⟨hw.hasRead hle,hmove⟩

theorem handleClose_left (h : Handler) (env : CloseEnv) (s : Conn) :
    (h.handleClose env s).2 = s ∨ (h.handleClose env s).2.Left := by
  rcases handleClose_cases h env s with ⟨_,he⟩ | ⟨hs,e,t,hu,he⟩ | ⟨hs,t,hu,he⟩
  · exact .inl (by rw [he])
  · refine .inr ?_
    rw [he]
    exact .inl ((unwatch_life hu).nState.trans (shutdown_disconnecting hs).2.1)
  · refine .inr (.inr ?_)
    rw [he]
    by_cases hf : h.closeFlag = true
    · rw [Act.onlyIf_true hf,callback_closed (s := t.closed h) env.callback rfl]
      rfl
    · rw [Act.onlyIf_false hf]
      rfl

end Frames

section Delivery
variable {s t : Conn} {accepted : List UInt8}

/-- Nothing but what was accepted is sent or queued, and while the connection is open
none of it is missing. -/
structure Conn.Delivers (s : Conn) (accepted : List UInt8) : Prop where
  output : s.output.Wf
  sent : s.wire ++ s.output.content <+: accepted
  linked : ¬s.Left → Stream.Linked ⟨s,accepted⟩

theorem begun_delivers (h : Handler) (throws : Option Exn) :
    Conn.Delivers { h.begun none with exception := throws } [] := by
  rcases begun_cases h none with ⟨_,hn,_⟩ | ⟨_,hb⟩
  · cases hn
  have hreads := readEnabled_enableRead EVENT_NONE
  rw [hb]
  exact ⟨Buffer.ofSize_wf _,List.prefix_rfl,
    fun _ => ⟨⟨Buffer.ofSize_wf _,rfl,rfl,rfl,hreads,Nat.succ_ne_zero _⟩,rfl⟩⟩

theorem Conn.Delivers.wire (hs : s.Delivers accepted) : s.wire <+: accepted :=
  (List.prefix_append _ _).trans hs.sent

theorem Conn.Delivers.left (hs : s.Delivers accepted) (hb : s.SameBytes t) (hl : t.Left) : t.Delivers accepted :=
  ⟨by rw [hb.output]; exact hs.output,by rw [hb.wire,hb.output]; exact hs.sent,fun ho => absurd hl ho⟩

theorem Conn.Delivers.handleClose (hs : s.Delivers accepted) (h : Handler) (env : CloseEnv) :
    (h.handleClose env s).2.Delivers accepted := by
  rcases handleClose_left h env s with he | hl
  · rw [he]
    exact hs
  · exact hs.left (handleClose_bytes h env s) hl

theorem Conn.Delivers.frame (hs : s.Delivers accepted) (hw : t.wire = s.wire) (ho : t.output = s.output)
    (he : s.SameEpoll t) (hn : t.nState = s.nState) (hc : t.sendCurrentIndex = s.sendCurrentIndex) :
    t.Delivers accepted := by
  refine ⟨by rw [ho]; exact hs.output,by rw [hw,ho]; exact hs.sent,fun hopen => ?_⟩
  obtain ⟨⟨h1,h2,h3,h4,h5,h6⟩,h7⟩ := hs.linked (fun hl => hopen (Ledger.left_of_nState hl hn))
  exact ⟨⟨by rw [ho]; exact h1,by rw [hw,ho]; exact h2,hn.trans h3,he.eState.trans h4,
    by rw [he.events]; exact h5,by rw [hc]; exact h6⟩,by rw [he.interest]; exact h7⟩

theorem Conn.Delivers.loopPass (hs : s.Delivers accepted) : (Context.loopPass s).2.Delivers accepted := by
  rcases loopPass_cases s with ⟨_,he⟩ | ⟨_,_,he⟩ | ⟨_,_,he⟩ <;> rw [he] <;>
    exact hs.frame rfl rfl ⟨rfl,rfl,rfl,rfl⟩ rfl rfl

theorem Conn.Delivers.handleWrite (hs : s.Delivers accepted) (ans : WriteAnswer) (ctl : CtlAnswer) :
    (Handler.handleWrite ans ctl s).2.Delivers accepted := by
  obtain ⟨hwf,hbytes⟩ := write_bytes ans ctl s hs.output
  refine ⟨hwf,by rw [hbytes]; exact hs.sent,fun ho => ?_⟩
  exact write_linked (hs.linked (fun hl => ho (Ledger.left_of_nState hl (Ledger.handleWrite_nState ans ctl s)))) ans ctl

theorem Conn.Delivers.shutdown (hs : s.Delivers accepted) : (Context.shutdown s).2.Delivers accepted := by
  rcases shutdown_cases s with ⟨_,he⟩ | ⟨_,_,he⟩ | ⟨_,_,he⟩ <;> rw [he]
  · exact hs
  · exact hs.left ⟨rfl,rfl,rfl⟩ (.inl rfl)
  · exact hs.left ⟨rfl,rfl,rfl⟩ (.inl rfl)

/-- If `EVENT_WRITE` has to be turned on, epoll takes it. -/
def Conn.Armable (s : Conn) (buf : List UInt8) (ans : WriteAnswer) (ctl : CtlAnswer) : Prop :=
  ans.rest buf ≠ [] → writeEnabled s.events = false → ctl = none

/-- The bytes wait their turn, and there is room for those that wait. -/
def Conn.InTurn (s : Conn) (buf : List UInt8) (ans : WriteAnswer) (ctl : CtlAnswer) : Prop :=
  (s.output.unread = 0 ∨ ans.taken buf = []) ∧ s.output.unread+(ans.rest buf).length ≤ 2^30 ∧ s.Armable buf ans ctl

instance (s : Conn) (buf : List UInt8) (ans : WriteAnswer) (ctl : CtlAnswer) : Decidable (s.Armable buf ans ctl) :=
  inferInstanceAs (Decidable (_ → _))

instance (s : Conn) (buf : List UInt8) (ans : WriteAnswer) (ctl : CtlAnswer) : Decidable (s.InTurn buf ans ctl) :=
  inferInstanceAs (Decidable (_ ∧ _ ∧ _))

theorem send_armable {buf : List UInt8} {ans : WriteAnswer} {ctl : CtlAnswer} {c : Completion} {t : Conn}
    (hl : ¬s.Left) (h : Context.send buf ans ctl s = (.ok c,t)) : s.Armable buf ans ctl := by
  intro hrest hw
  rcases send_cases buf ans ctl s hl with ⟨_,_,he⟩ | ⟨_,hall,_⟩ | ⟨_,_,_,o,_,he⟩ | ⟨_,_,o,_,he⟩
  · rw [h] at he
    cases he
  · have hnone := ans.taken_append_rest buf
    rw [hall,List.append_right_eq_self] at hnone
    exact absurd hnone hrest
  · rw [h] at he
    cases he
  · rw [h,Act.bind_apply] at he
    let q : Conn := s.queued (ans.taken buf) (ans.rest buf) o
    have hq : writeEnabled q.events = false := hw
    have harm : Context.armWrite ctl q = updateEvents ctl { q with events := q.events ||| EVENT_WRITE } := by
      rcases armWrite_cases ctl q with ⟨hon,_⟩ | ⟨_,ha⟩
      · rw [hq] at hon
        cases hon
      · exact ha
    rw [harm] at he
    rcases updateEvents_cases ctl { q with events := q.events ||| EVENT_WRITE } with ⟨_,hctl,_⟩ | ⟨_,_,hu⟩
    · exact hctl
    · rw [hu] at he
      cases he

theorem Conn.Delivers.send (hs : s.Delivers accepted) (buf : List UInt8) (ans : WriteAnswer) (ctl : CtlAnswer)
    (hturn : ¬s.Left → s.InTurn buf ans ctl) :
    (Context.send buf ans ctl s).2.Delivers (accepted ++ acceptedBy buf (Context.send buf ans ctl s).1) := by
  by_cases hl : s.Left
  · rw [send_left buf ans ctl s hl]
    have hnone : acceptedBy buf (.ok ⟨Completion.INVALID⟩ : Except Exn Completion) = [] := by
      simp [acceptedBy]
    dsimp only
    rw [hnone,List.append_nil]
    exact hs
  · obtain ⟨hfirst,hroom,harm⟩ := hturn hl
    have hlinked := hs.linked hl
    have hstream : (Stream.mk s accepted).InTurn (.send buf ans ctl) :=
      ⟨hfirst,hroom,fun hrest hw => ⟨harm hrest hw,hlinked.interest⟩⟩
    have hsent := send_linked hlinked hstream
    exact ⟨hsent.inv.wf,hsent.inv.ordered ▸ List.prefix_rfl,fun _ => hsent⟩

end Delivery

end FluentNet
