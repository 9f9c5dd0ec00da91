import FluentNet.Handler.Linked
import FluentNet.Network.BufferQueue
set_option autoImplicit false

/-! Message callbacks that look at the bytes they are called for. -/

namespace FluentNet
open Throwing

/-- A connection, what `::readv` has given it, and what its callbacks keep beside it. -/
structure Session (σ : Type) where
  conn : Conn
  received : List UInt8
  user : σ
  deriving DecidableEq, Repr

abbrev SessionAct (σ : Type) := Act Exn (Session σ)

/-- What a `::readv` puts into the room in the buffer and into `localBuffer`. -/
def ReadAnswer.got (ans : ReadAnswer) (b : Buffer) : List UInt8 :=
  match ans with
  | .data bytes => bytes.take (b.unwrite.toNat+Buffer.LOCAL_SIZE)
  | .fails _ => []

theorem readFrom_got {b : Buffer} (h : b.Wf) (ans : ReadAnswer) (hroom : b.unread+(ans.got b).length ≤ 2^30) :
    ∃ i n, Buffer.readFrom ans b = (.ok n,i) ∧ i.Wf ∧ i.content = b.content ++ ans.got b ∧
      (n > 0 ↔ ans.got b ≠ []) := by
  cases ans with
  | fails err => exact ⟨b,-1,rfl,h,by simp [ReadAnswer.got],by simp [ReadAnswer.got]⟩
  | data bytes =>
    obtain ⟨i,hi,hwf,hcontent⟩ := h.store hroom
    refine ⟨i,(ReadAnswer.got (.data bytes) b).length,?_,hwf,hcontent,?_⟩
    · rw [Buffer.readFrom,Act.get_bind]
      exact Act.bind_of_ok hi
    · rw [gt_iff_lt,Int.natCast_pos,List.length_pos_iff]

namespace Session
variable {σ : Type}

def onConn {α : Type} : ConnAct α → SessionAct σ α :=
  Act.zoom (fun s => s.conn) (fun s conn => { s with conn })

section Events
variable (h : Handler) (onMessage : SessionAct σ Unit)

def readInput (ans : ReadAnswer) : SessionAct σ Int := do
  Act.modify (fun s => { s with received := s.received ++ ans.got s.conn.input })
  onConn (Handler.readInput ans)

def handleRead (env : EventEnv) : SessionAct σ Unit := do
  let n ← readInput env.read
  if n > 0 then
    Act.onlyIf h.messageFlag (do
      onConn (record .message)
      onMessage)
  else if n = 0 then onConn (h.handleClose env.fin)
  else Act.onlyIf (env.read.errno ≠ EAGAIN ∧ env.read.errno ≠ EINTR) (onConn Handler.handleError)

def handleEvent (revent : EventBitmap) (env : EventEnv) : SessionAct σ Unit := do
  Act.onlyIf (Handler.hungUp revent) (onConn (h.handleClose env.hup))
  Act.onlyIf (hasBits revent (POLLERR ||| POLLNVAL)) (onConn Handler.handleError)
  Act.onlyIf (hasBits revent (POLLIN ||| POLLPRI ||| POLLRDHUP)) (handleRead h onMessage env)
  Act.onlyIf (hasBits revent POLLOUT) (onConn (Handler.handleWrite env.write env.ctl))

def dispatch (revent : EventBitmap) (env : EventEnv) : SessionAct σ Unit := do
  onConn (Act.modify (fun s => { s with eof := s.eof || Handler.hungUp revent }))
  Act.attempt (handleEvent h onMessage revent env) (fun e => onConn (Handler.catchException e))

end Events

theorem onConn_tracks {α : Type} (m : ConnAct α) : Tracks Session.conn (onConn m : SessionAct σ α) m :=
  .zoom (fun _ _ => rfl) m

theorem handleRead_tracks (h : Handler) (env : EventEnv) :
    Tracks Session.conn (handleRead h (onConn env.message.exec) env : SessionAct σ Unit) (h.handleRead env) := by
  refine Tracks.bind (.modify (fun _ => rfl) (onConn_tracks _)) (fun n => ?_)
  by_cases h1 : n > 0
  · simp only [if_pos h1]
    exact .onlyIf ((onConn_tracks _).bind (fun _ => onConn_tracks _))
  · by_cases h2 : n = 0
    · simp only [if_neg h1,if_pos h2]
      exact onConn_tracks _
    · simp only [if_neg h1,if_neg h2]
      exact .onlyIf (onConn_tracks _)

theorem dispatch_tracks (h : Handler) (revent : EventBitmap) (env : EventEnv) :
    Tracks Session.conn (dispatch h (onConn env.message.exec) revent env : SessionAct σ Unit)
      (h.dispatch revent env) := by
  refine (onConn_tracks _).bind (fun _ => Tracks.attempt ?_ (fun _ => onConn_tracks _))
  refine (Tracks.onlyIf (onConn_tracks _)).bind (fun _ => ?_)
  refine (Tracks.onlyIf (onConn_tracks _)).bind (fun _ => ?_)
  exact (Tracks.onlyIf (handleRead_tracks h env)).bind (fun _ => .onlyIf (onConn_tracks _))

theorem readInput_only (ans : ReadAnswer) (s : Session σ) : ∃ input eof, (readInput ans s).2 =
    { s with
      received := s.received ++ ans.got s.conn.input
      conn := { s.conn with input, eof } } := by
  rw [readInput,Act.modify_bind,onConn,Act.zoom_apply]
  rcases readInput_cases ans s.conn with ⟨i,e,he,_⟩ | ⟨i,n,he,_⟩ <;> rw [he] <;> exact ⟨_,_,rfl⟩

theorem readInput_got {s : Session σ} (h : s.conn.input.Wf) (ans : ReadAnswer)
    (hroom : s.conn.input.unread+(ans.got s.conn.input).length ≤ 2^30) :
    ∃ i n, readInput ans s = (.ok n,{ s with
        received := s.received ++ ans.got s.conn.input
        conn := { s.conn with input := i, eof := s.conn.eof || n == 0 } }) ∧
      i.Wf ∧ i.content = s.conn.input.content ++ ans.got s.conn.input ∧
      (n > 0 ↔ ans.got s.conn.input ≠ []) := by
  obtain ⟨i,n,hi,hwf,hcontent,hpos⟩ := readFrom_got h ans hroom
  refine ⟨i,n,?_,hwf,hcontent,hpos⟩
  rw [readInput,Act.modify_bind,onConn,Act.zoom_apply,Handler.readInput,Act.bind_of_ok (onInput_of hi)]
  rfl

theorem dispatch_silent {h : Handler} (hf : h.messageFlag = false) (m n : SessionAct σ Unit) (revent : EventBitmap)
    (env : EventEnv) : dispatch h m revent env = dispatch h n revent env := by
  simp [dispatch,handleEvent,handleRead,hf]

theorem dispatch_follows {r : Session σ → Session σ → Prop} (h : Handler) {onMessage : SessionAct σ Unit}
    (hsame : ∀ (s : Session σ) (conn : Conn), s.conn.SameBytes conn → r s { s with conn })
    (hread : ∀ ans, Follows r (readInput ans))
    (hwrite : ∀ ans ctl, Follows r (onConn (Handler.handleWrite ans ctl)))
    (hm : Follows r onMessage) (revent : EventBitmap) (env : EventEnv) :
    Follows r (dispatch h onMessage revent env) := by
  have hkept : ∀ {α : Type} {m : ConnAct α}, (∀ s : Conn, s.SameBytes (m s).2) → Follows r (onConn m) :=
    fun hs s => .single (hsame s _ (hs s.conn))
  have hclose : ∀ env : CloseEnv, Follows r (onConn (h.handleClose env)) :=
    fun env => hkept (handleClose_bytes h env)
  have hthrow : Follows r (onConn Handler.handleError) := hkept (fun _ => ⟨rfl,rfl,rfl⟩)
  have hreads : Follows r (handleRead h onMessage env) := by
    refine (hread env.read).bind (fun n => ?_)
    split
    · exact .onlyIf (fun _ => (hkept (fun _ => ⟨rfl,rfl,rfl⟩)).bind (fun _ => hm))
    · split
      · exact hclose env.fin
      · exact .onlyIf (fun _ => hthrow)
  refine (hkept (fun _ => ⟨rfl,rfl,rfl⟩)).bind (fun _ => Follows.attempt ?_ (fun _ => hkept (fun _ => ⟨rfl,rfl,rfl⟩)))
  refine (Follows.onlyIf (fun _ => hclose env.hup)).bind (fun _ => ?_)
  refine (Follows.onlyIf (fun _ => hthrow)).bind (fun _ => ?_)
  refine (Follows.onlyIf (fun _ => hreads)).bind (fun _ => ?_)
  exact .onlyIf (fun _ => hwrite env.write env.ctl)

section Holds
variable {I A : Session σ → Prop} (h : Handler) {onMessage : SessionAct σ Unit} {env : EventEnv}

theorem handleRead_holds {s t : Session σ} {n : Int} (hr : readInput env.read s = (.ok n,t)) (ht : I t)
    (hmessage : n > 0 → h.messageFlag = true → I (onMessage (onConn (record .message) t).2).2)
    (hclose : I (onConn (h.handleClose env.fin) t).2) : I (handleRead h onMessage env s).2 := by
  rw [handleRead,Act.bind_of_ok hr]
  by_cases h1 : n > 0
  · rw [if_pos h1]
    by_cases hf : h.messageFlag = true
    · rw [Act.onlyIf_true hf]
      exact hmessage h1 hf
    · rw [Act.onlyIf_false hf]
      exact ht
  · rw [if_neg h1]
    by_cases h0 : n = 0
    · rw [if_pos h0]
      exact hclose
    · rw [if_neg h0]
      by_cases herr : env.read.errno ≠ EAGAIN ∧ env.read.errno ≠ EINTR
      · rw [Act.onlyIf_true herr]
        exact ht
      · rw [Act.onlyIf_false herr]
        exact ht

/-- What the parts of an event keep is kept by the event. `A` is what the read needs; a
hang-up is handled before it. -/
theorem dispatch_holds (heof : ∀ (s : Session σ) eof, I s ∧ A s →
      I { s with conn := { s.conn with eof } } ∧ A { s with conn := { s.conn with eof } })
    (hcatch : ∀ e s, I s → I (onConn (Handler.catchException e) s).2)
    (hclose : ∀ s, I s ∧ A s → I (onConn (h.handleClose env.hup) s).2 ∧ A (onConn (h.handleClose env.hup) s).2)
    (hread : ∀ s, I s → A s → I (handleRead h onMessage env s).2)
    (hwrite : ∀ s, I s → I (onConn (Handler.handleWrite env.write env.ctl) s).2)
    (revent : EventBitmap) {s : Session σ} (hs : I s) (ha : A s) : I (dispatch h onMessage revent env s).2 := by
  let u : Session σ := { s with conn := { s.conn with eof := s.conn.eof || Handler.hungUp revent } }
  have hu : I u ∧ A u := heof s _ ⟨hs,ha⟩
  have hrun : dispatch h onMessage revent env s =
      Act.attempt (handleEvent h onMessage revent env) (fun e => onConn (Handler.catchException e)) u := rfl
  rw [hrun]
  refine attempt_keeps ?_ hcatch
  have hclosed : I (Act.onlyIf (Handler.hungUp revent) (onConn (h.handleClose env.hup)) u).2 ∧
      A (Act.onlyIf (Handler.hungUp revent) (onConn (h.handleClose env.hup)) u).2 := by
    by_cases hup : Handler.hungUp revent = true
    · rw [Act.onlyIf_true hup]
      exact hclose u hu
    · rw [Act.onlyIf_false hup]
      exact hu
  refine bind_holds (I := I) hclosed.1 (fun _ v hv _ => ?_)
  rw [hv] at hclosed
  obtain ⟨hi,hav⟩ := hclosed
  by_cases herr : hasBits revent (POLLERR ||| POLLNVAL) = true
  · rw [Act.onlyIf_true herr]
    exact hi
  rw [Act.onlyIf_false herr]
  refine bind_holds (I := I) hi (fun _ w hw _ => ?_)
  cases hw
  refine bind_keeps (I := I) ?_ (fun _ t ht => ?_)
  · by_cases hin : hasBits revent (POLLIN ||| POLLPRI ||| POLLRDHUP) = true
    · rw [Act.onlyIf_true hin]
      exact hread v hi hav
    · rw [Act.onlyIf_false hin]
      exact hi
  · by_cases hout : hasBits revent POLLOUT = true
    · rw [Act.onlyIf_true hout]
      exact hwrite t ht
    · rw [Act.onlyIf_false hout]
      exact ht

end Holds

end Session
end FluentNet
