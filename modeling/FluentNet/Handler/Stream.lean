import FluentNet.Handler.Steps
set_option autoImplicit false

/-! The outgoing byte stream: sends and write events of one open connection. -/

namespace FluentNet
open Throwing Runs

inductive StreamOp where
  | send (buf : List UInt8) (ans : WriteAnswer) (ctl : CtlAnswer)
  | write (ans : WriteAnswer) (ctl : CtlAnswer)
  deriving DecidableEq, Repr

/-- A connection and the payloads of the sends it has accepted so far. -/
structure Stream where
  conn : Conn
  accepted : List UInt8
  deriving DecidableEq, Repr

def Stream.start (h : Handler) (ctl : CtlAnswer) : Stream := ⟨h.begun ctl,[]⟩

def acceptedBy (buf : List UInt8) : Except Exn Completion → List UInt8
  | .ok c => if c.token = Completion.INVALID then [] else buf
  | .error _ => []

def Stream.step (p : Stream) : StreamOp → Option Stream
  | .send buf ans ctl =>
      let (r,t) := Context.send buf ans ctl p.conn
      some ⟨t,p.accepted ++ acceptedBy buf r⟩
  | .write ans ctl => some ⟨(Handler.handleWrite ans ctl p.conn).2,p.accepted⟩

/-- What the kernel has, followed by what is still queued, is what was sent. -/
def Stream.Ordered (p : Stream) : Prop :=
  p.conn.nState = .connected → p.conn.wire ++ p.conn.output.content = p.accepted

instance (p : Stream) : Decidable p.Ordered := inferInstanceAs (Decidable (_ → _))

/-- A send that finds bytes queued gives the kernel none of its own, leaves a
backlog of at most 2^30 bytes, and is let through if it has to ask for writability. -/
def Stream.InTurn (p : Stream) : StreamOp → Prop
  | .send buf ans ctl =>
      (p.conn.output.unread = 0 ∨ ans.taken buf = []) ∧
      p.conn.output.unread+(ans.rest buf).length ≤ 2^30 ∧
      (ans.rest buf ≠ [] → writeEnabled p.conn.events = false →
        ctl = none ∧ p.conn.interest.isSome)
  | .write _ _ => True

instance (p : Stream) (op : StreamOp) : Decidable (p.InTurn op) :=
  match op with
  | .send _ _ _ => inferInstanceAs (Decidable (_ ∧ _ ∧ _))
  | .write _ _ => inferInstanceAs (Decidable True)

structure Stream.Inv (p : Stream) : Prop where
  wf : p.conn.output.Wf
  ordered : p.conn.wire ++ p.conn.output.content = p.accepted
  nState : p.conn.nState = .connected
  eState : p.conn.eState = .added
  reads : readEnabled p.conn.events = true
  token : p.conn.sendCurrentIndex ≠ Completion.INVALID

theorem start_inv (h : Handler) (ctl : CtlAnswer) : (Stream.start h ctl).Inv := by
  have hreads := readEnabled_enableRead EVENT_NONE
  unfold Stream.start
  rcases begun_cases h ctl with ⟨err,_,hb⟩ | ⟨_,hb⟩ <;> rw [hb]
  · exact ⟨Buffer.ofSize_wf _,rfl,rfl,rfl,hreads,Nat.succ_ne_zero _⟩
  · exact ⟨Buffer.ofSize_wf _,rfl,rfl,rfl,hreads,Nat.succ_ne_zero _⟩

section Steps
variable {p : Stream}

theorem Stream.Inv.rearm (hp : p.Inv) (ctl : CtlAnswer) {events : EventBitmap}
    (hr : readEnabled events = true) :
    Stream.Inv ⟨(updateEvents ctl { p.conn with events }).2,p.accepted⟩ := by
  obtain ⟨interest,ok,hu⟩ := updateEvents_frame ctl { p.conn with events }
  have hnext : (updateEventState p.conn.eState events).1 = .added := by
    simp [updateEventState,hp.eState,ne_none_of_readEnabled hr]
  rw [hu]
  exact ⟨hp.wf,hp.ordered,hp.nState,hnext,hr,hp.token⟩

theorem Stream.Inv.armWrite_ok (hp : p.Inv) {ctl : CtlAnswer}
    (h : writeEnabled p.conn.events = false → ctl = none ∧ p.conn.interest.isSome) :
    (Context.armWrite ctl p.conn).1 = .ok () ∧
      Stream.Inv ⟨(Context.armWrite ctl p.conn).2,p.accepted⟩ := by
  rcases armWrite_cases ctl p.conn with ⟨_,ha⟩ | ⟨hw,ha⟩ <;> rw [ha]
  · exact ⟨rfl,hp⟩
  · have hr : readEnabled (p.conn.events ||| EVENT_WRITE) = true := by simp [hp.reads]
    refine ⟨?_,hp.rearm ctl hr⟩
    obtain ⟨hctl,hreg⟩ := h hw
    have hmod : (updateEventState p.conn.eState (p.conn.events ||| EVENT_WRITE)).2 = .mod := by
      simp [updateEventState,hp.eState,ne_none_of_readEnabled hr]
    obtain ⟨mask,hmask⟩ := Option.isSome_iff_exists.mp hreg
    rcases updateEvents_cases ctl { p.conn with events := p.conn.events ||| EVENT_WRITE }
      with ⟨_,_,hu⟩ | ⟨hn,_⟩
    · rw [hu]
    · exact absurd ⟨by simp [hmod,hmask,EpollOperationHint.legal],hctl⟩ hn

theorem send_inv (hp : p.Inv) {buf : List UInt8} {ans : WriteAnswer} {ctl : CtlAnswer}
    (hturn : p.InTurn (.send buf ans ctl)) :
    Stream.Inv ⟨(Context.send buf ans ctl p.conn).2,
      p.accepted ++ acceptedBy buf (Context.send buf ans ctl p.conn).1⟩ := by
  obtain ⟨hfirst,hroom,harm⟩ := hturn
  have hopen : ¬p.conn.Left := by simp [Conn.Left,hp.nState]
  -- either nothing is queued or the kernel takes nothing
  have hfront : p.conn.output.content = [] ∨ ans.taken buf = [] :=
    hfirst.imp_left (fun h0 => by
      have hl := hp.wf.content_length
      exact List.eq_nil_of_length_eq_zero (by omega))
  have hmove : ∀ bytes, p.conn.wire ++ ans.taken buf ++ (p.conn.output.content ++ bytes) =
      p.accepted ++ (ans.taken buf ++ bytes) := by
    intro bytes
    rw [← hp.ordered]
    rcases hfront with h0 | h0 <;> simp [h0]
  rcases send_cases buf ans ctl p.conn hopen with
    ⟨err,_,hs⟩ | ⟨_,htaken,hs⟩ | ⟨_,_,e,o,happ,_⟩ | ⟨_,hlt,o,happ,hs⟩
  · rw [hs]
    simpa [acceptedBy] using hp
  · rw [hs]
    refine ⟨hp.wf,?_,hp.nState,hp.eState,hp.reads,hp.token⟩
    have := hmove []
    simpa [acceptedBy,htaken,Completion.FAST_COMPLETE,Completion.INVALID] using this
  · obtain ⟨t,ht,_⟩ := hp.wf.append (.inr hroom)
    rw [ht] at happ
    cases happ
  · obtain ⟨t,ht,hwf,hcontent⟩ := hp.wf.append (.inr hroom)
    rw [ht] at happ
    cases happ
    have hne : ans.rest buf ≠ [] := by
      intro h0
      have hl := ans.rest_length buf
      rw [h0,List.length_nil] at hl
      omega
    let q : Stream := ⟨p.conn.queued (ans.taken buf) (ans.rest buf) o,p.accepted ++ buf⟩
    have hq : q.Inv := by
      refine ⟨hwf,?_,hp.nState,hp.eState,hp.reads,Nat.succ_ne_zero _⟩
      have := hmove (ans.rest buf)
      simpa [q,Conn.queued,hcontent] using this
    obtain ⟨hok,hinv⟩ := hq.armWrite_ok (harm hne)
    have hres : (Context.send buf ans ctl p.conn) =
        (.ok ⟨p.conn.sendCurrentIndex⟩,(Context.armWrite ctl q.conn).2) := by
      rw [hs]
      exact Act.bind_of_ok (Prod.ext hok rfl)
    rw [hres]
    simpa [acceptedBy,hp.token] using hinv

theorem write_inv (hp : p.Inv) (ans : WriteAnswer) (ctl : CtlAnswer) :
    Stream.Inv ⟨(Handler.handleWrite ans ctl p.conn).2,p.accepted⟩ := by
  have hle : ((ans.taken p.conn.output.content).length : Int) ≤ p.conn.output.unread := by
    have h1 := ans.taken_length_le p.conn.output.content
    have h2 := hp.wf.content_length
    omega
  have hdrained : Stream.Inv ⟨p.conn.drained (ans.taken p.conn.output.content),p.accepted⟩ := by
    refine ⟨hp.wf.hasRead hle,?_,hp.nState,hp.eState,hp.reads,hp.token⟩
    simp only [Conn.drained,hp.wf.hasRead_content hle,List.append_assoc]
    rw [← WriteAnswer.rest,ans.taken_append_rest]
    exact hp.ordered
  rcases handleWrite_cases ans ctl p.conn with ⟨_,hs⟩ | ⟨_,_,_,hs⟩ | ⟨_,_,_,hs⟩ | ⟨_,_,hs⟩ <;> rw [hs]
  · exact hp
  · exact hp
  · exact hdrained.rearm ctl (by simp [hp.reads])
  · exact hdrained

end Steps

theorem Stream.Inv.step {p q : Stream} {op : StreamOp} (hturn : p.InTurn op)
    (hstep : p.step op = some q) (hp : p.Inv) : q.Inv := by
  cases op with
  | send buf ans ctl =>
    cases hstep
    exact send_inv hp hturn
  | write ans ctl =>
    cases hstep
    exact write_inv hp ans ctl

/-- No byte of a later send overtakes a queued byte of an earlier one as long as
every send takes its turn. -/
theorem stream_ordered_in_turn (h : Handler) (ctl : CtlAnswer) (p : Stream)
    (hrun : Path Stream.step Stream.InTurn (Stream.start h ctl) p) : p.Ordered :=
  fun _ => (hrun.keeps (fun _ _ _ => Stream.Inv.step) (start_inv h ctl)).ordered

section Overtaking

def overtaking : List StreamOp := [.send [1] (.accepts 0) none,.send [2] (.accepts 1) none]

def inTurn : List StreamOp :=
  [.send [1] (.accepts 0) none,.write (.accepts 1) none,.send [2] (.accepts 1) none]

theorem stream_ordered_in_turn_drained :
    ∃ p : Stream, p.conn.wire = [1,2] ∧ p.accepted = [1,2] ∧ p.Ordered := by
  have hrun : (run Stream.step Stream.InTurn (Stream.start .all none) inTurn).any
      (fun p => p.conn.wire = [1,2] ∧ p.accepted = [1,2]) := by decide +kernel
  obtain ⟨p,hp,hsent⟩ := (Option.any_eq_true _ _).mp hrun
  obtain ⟨hwire,hacc⟩ := of_decide_eq_true hsent
  exact ⟨p,hwire,hacc,stream_ordered_in_turn .all none p (run_path hp)⟩

/-- A send with bytes queued before it still writes to the socket first. -/
theorem send_overtakes_queue : ¬∀ (h : Handler) (ctl : CtlAnswer) (p : Stream),
    Path Stream.step Any (Stream.start h ctl) p → p.Ordered := by
  intro hall
  have hrun : (run Stream.step Any (Stream.start .all none) overtaking).any
      (fun p => ¬p.Ordered) := by decide +kernel
  obtain ⟨p,hp,hbad⟩ := (Option.any_eq_true _ _).mp hrun
  exact of_decide_eq_true hbad (hall .all none p (run_path hp))

end Overtaking

end FluentNet
