import FluentNet.Handler.SendQueue
set_option autoImplicit false

/-!
The sends that come after the context was shut down or closed, and what their
`Completion`s report.
-/

namespace FluentNet
open Throwing Runs

/-- The sends of a connection, and the `Completion`s of those that it rejected. -/
structure Ledger where
  box : Outbox
  rejected : List Completion
  deriving DecidableEq, Repr

namespace Ledger

def start (h : Handler) (ctl : CtlAnswer) : Ledger := ⟨Outbox.start h ctl,[]⟩

/-- What a call returns while the context is `DISCONNECTING` or `DISCONNECTED`. -/
def rejects (s : Ledger) : SendOp → List Completion
  | .send buf ans ctl =>
      match (Context.send buf ans ctl s.box.conn).1 with
      | .ok c => if s.box.conn.Left then [c] else []
      | .error _ => []
  | _ => []

def step (h : Handler) (s : Ledger) (op : SendOp) : Option Ledger :=
  (s.box.step h op).map (fun box => { box, rejected := s.rejected ++ s.rejects op })

/-- How many of the queued sends end within the next `n` bytes. -/
def endsWithin (n : Nat) (sizes : List Nat) : Nat :=
  (List.range sizes.length).countP (fun k => (sizes.take (k+1)).sum ≤ n)

/-- A send is rejected only while the completed index is 0, having wrapped, and after
that the kernel takes the last byte of no queued send, or of 2^64 at a time. -/
def Admits (s : Ledger) : SendOp → Prop
  | .send _ _ _ => s.box.conn.Left → s.box.conn.sendCompletedIndex % 2^64 = 0
  | .write ans _ => s.rejected ≠ [] → writeEnabled s.box.conn.events = true →
      endsWithin (ans.taken s.box.conn.output.content).length s.box.conn.sendProvider % 2^64 = 0
  | _ => True

instance (s : Ledger) (op : SendOp) : Decidable (s.Admits op) := by
  unfold Admits
  split <;> infer_instance

structure Closed (s : Ledger) : Prop where
  invalid : ∀ c ∈ s.rejected, c = ⟨Completion.INVALID⟩
  left : s.rejected ≠ [] → s.box.conn.Left

section Ends
variable {n front : Nat} {rest sizes : List Nat}

end Ends

section Steps
variable {h : Handler} {s t : Ledger} {op : SendOp}

theorem Closed.none_open (hs : s.Closed) (hl : ¬s.box.conn.Left) : s.rejected = [] := by
  cases hr : s.rejected with
  | nil => rfl
  | cons c rest => exact absurd (hs.left (by simp [hr])) hl

theorem rejects_left (hl : s.box.conn.Left) (buf : List UInt8) (ans : WriteAnswer) (ctl : CtlAnswer) :
    s.rejects (.send buf ans ctl) = [⟨Completion.INVALID⟩] := by
  simp only [rejects,send_left _ _ _ _ hl,if_pos hl]

theorem rejects_open (hl : ¬s.box.conn.Left) (op : SendOp) : s.rejects op = [] := by
  cases op with
  | send buf ans ctl =>
    simp only [rejects,if_neg hl]
    split <;> rfl
  | _ => rfl

theorem step_conn (hstep : s.step h op = some t) : t.rejected = s.rejected ++ s.rejects op ∧
    s.box.step h op = some t.box := by
  obtain ⟨box,hbox,rfl⟩ := Option.map_eq_some_iff.mp hstep
  exact ⟨rfl,hbox⟩

section Left
variable {c : Conn}

theorem left_of_nState {u : Conn} (hl : c.Left) (hu : u.nState = c.nState) : u.Left := by
  rw [Conn.Left,hu]
  exact hl

theorem left_not_connected (hl : c.Left) : c.nState ≠ .connected := by
  intro hc
  rw [Conn.Left,hc] at hl
  rcases hl with hl | hl <;> cases hl

theorem shutdown_of_left (hl : c.Left) : (Context.shutdown c).2 = c := by
  rcases shutdown_cases c with ⟨_,he⟩ | ⟨hc,_⟩ | ⟨hc,_⟩
  · rw [he]
  · exact absurd hc (left_not_connected hl)
  · exact absurd hc (left_not_connected hl)

theorem handleWrite_nState (ans : WriteAnswer) (ctl : CtlAnswer) (c : Conn) :
    (Handler.handleWrite ans ctl c).2.nState = c.nState := by
  rcases handleWrite_cases ans ctl c with ⟨_,he⟩ | ⟨_,_,_,he⟩ | ⟨_,_,_,he⟩ | ⟨_,_,he⟩
  · rw [he]
  · rw [he]
  · obtain ⟨interest,ok,hu⟩ := updateEvents_frame ctl
      { c.drained (ans.taken c.output.content) with events := disableWrite c.events }
    rw [he,hu]
    rfl
  · rw [he]
    rfl

theorem loopPass_nState (hl : c.Left) : (Context.loopPass c).2.nState = c.nState := by
  rcases loopPass_cases c with ⟨_,he⟩ | ⟨hc,_⟩ | ⟨hc,_⟩
  · rw [he]
  · exact absurd hc (left_not_connected hl)
  · exact absurd hc (left_not_connected hl)

end Left

theorem conn_stays_left {p q : Outbox} (hl : p.conn.Left) (hstep : p.step h op = some q) : q.conn.Left := by
  cases op with
  | send buf ans ctl =>
    simp only [Outbox.step,send_left _ _ _ _ hl,Int.sub_self,Int.toNat_zero,if_true] at hstep
    cases hstep
    exact hl
  | write ans ctl =>
    cases hstep
    exact left_of_nState hl (handleWrite_nState ans ctl p.conn)
  | shutdown =>
    cases hstep
    exact left_of_nState hl (by rw [shutdown_of_left hl])
  | loopPass =>
    cases hstep
    exact left_of_nState hl (loopPass_nState hl)
  | close env =>
    cases hstep
    rcases Outbox.handleClose_closes (h := h) env p.conn with he | ⟨e,t,ht,he⟩ | ⟨t,_,he⟩
    · exact left_of_nState hl (by rw [he])
    · have hu : (updateEvents env.ctl { p.conn with
          events := disableWrite (disableRead p.conn.events) }).2 = t := by
        rw [shutdown_of_left hl] at ht
        exact congrArg Prod.snd ht
      obtain ⟨interest,ok,hframe⟩ := updateEvents_frame env.ctl { p.conn with
        events := disableWrite (disableRead p.conn.events) }
      exact left_of_nState hl (by rw [he,← hu,hframe])
    · dsimp only
      rw [he]
      exact .inr rfl

theorem Closed.step (hs : s.Closed) (hstep : s.step h op = some t) : t.Closed := by
  obtain ⟨hrejected,hbox⟩ := step_conn hstep
  by_cases hl : s.box.conn.Left
  · refine ⟨fun c hc => ?_,fun _ => conn_stays_left hl hbox⟩
    rw [hrejected] at hc
    rcases List.mem_append.mp hc with hc | hc
    · exact hs.invalid c hc
    · cases op with
      | send buf ans ctl =>
        rw [rejects_left hl] at hc
        exact List.mem_singleton.mp hc
      | _ => cases hc
  · have hnone : t.rejected = [] := by
      rw [hrejected,rejects_open hl,List.append_nil,hs.none_open hl]
    exact ⟨by simp [hnone],fun hne => absurd hnone hne⟩

end Steps

section Running

end Running

end Ledger
end FluentNet
