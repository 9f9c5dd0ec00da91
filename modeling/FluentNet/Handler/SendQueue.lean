import FluentNet.Handler.EpollSteps
import Mathlib.Algebra.GroupWithZero.Nat
set_option autoImplicit false

/-!
The sends that could not write all they were given: their sizes, the two indices
and `EVENT_WRITE` against the bytes that wait in `output`.
-/

namespace FluentNet
open Throwing Runs

section Completing

def Positive (sizes : List Nat) : Prop := ∀ n ∈ sizes, 0 < n

variable {sizes : List Nat} {completed : Nat}

@[simp] theorem completeSends_none (sizes : List Nat) (completed : Nat) :
    completeSends 0 sizes completed = (sizes,completed) := by
  cases sizes <;> rfl

theorem completeSends_part {n front : Nat} (h : n < front) (rest : List Nat) (completed : Nat)
    (hn : 0 < n) : completeSends n (front :: rest) completed = ((front-n) :: rest,completed) := by
  cases n with
  | zero => omega
  | succ n => simp only [completeSends,if_pos h]

theorem completeSends_front {n front : Nat} (h : front ≤ n) (rest : List Nat) (completed : Nat)
    (hn : 0 < n) :
    completeSends n (front :: rest) completed = completeSends (n-front) rest (completed+1) := by
  cases n with
  | zero => omega
  | succ n => simp only [completeSends,if_neg (Nat.not_lt.mpr h)]

/-- Bytes that go out in two writes complete what they would in one. -/
theorem completeSends_add (a b : Nat) (hs : Positive sizes) :
    completeSends (a+b) sizes completed =
      completeSends b (completeSends a sizes completed).1 (completeSends a sizes completed).2 := by
  induction sizes generalizing a completed with
  | nil => cases a <;> cases b <;> rfl
  | cons front rest ih =>
    obtain ⟨hf,hrest⟩ := List.forall_mem_cons.mp hs
    rcases Nat.eq_zero_or_pos a with rfl | ha
    · simp
    rcases Nat.eq_zero_or_pos b with rfl | hb
    · simp
    by_cases h1 : front ≤ a
    · rw [completeSends_front h1 rest completed ha,completeSends_front (by omega) rest completed (by omega),
        ← ih (a-front) hrest,Nat.sub_add_comm h1]
    · rw [completeSends_part (by omega) rest completed ha]
      dsimp only
      by_cases h2 : front ≤ a+b
      · have hsub : a+b-front = b-(front-a) := by omega
        rw [completeSends_front h2 rest completed (by omega),
          completeSends_front (by omega) rest completed hb,hsub]
      · have hsub : front-(a+b) = front-a-b := by omega
        rw [completeSends_part (by omega) rest completed (by omega),
          completeSends_part (by omega) rest completed hb,hsub]

/-- What waits behind the bytes that go out is not looked at. -/
theorem completeSends_append {n : Nat} (hs : Positive sizes) (hn : n ≤ sizes.sum) (more : List Nat) :
    completeSends n (sizes ++ more) completed =
      ((completeSends n sizes completed).1 ++ more,(completeSends n sizes completed).2) := by
  induction sizes generalizing n completed with
  | nil =>
    obtain rfl : n = 0 := by simpa using hn
    simp
  | cons front rest ih =>
    obtain ⟨hf,hrest⟩ := List.forall_mem_cons.mp hs
    rcases Nat.eq_zero_or_pos n with rfl | hpos
    · simp
    rw [List.sum_cons] at hn
    rw [List.cons_append]
    by_cases h1 : front ≤ n
    · rw [completeSends_front h1 _ completed hpos,completeSends_front h1 _ completed hpos]
      exact ih hrest (by omega)
    · rw [completeSends_part (by omega) _ completed hpos,completeSends_part (by omega) _ completed hpos]
      rfl

structure Completes (n : Nat) (sizes : List Nat) (completed : Nat) (next : List Nat × Nat) : Prop where
  positive : Positive next.1
  sum : next.1.sum+n = sizes.sum
  advances : completed ≤ next.2
  length : next.2+next.1.length = completed+sizes.length
  /-- the completed index has passed just those whose bytes are all out -/
  passed : ∀ k < sizes.length, completed+k < next.2 ↔ (sizes.take (k+1)).sum ≤ n

theorem completeSends_completes {n : Nat} (completed : Nat) (hs : Positive sizes) (hn : n ≤ sizes.sum) :
    Completes n sizes completed (completeSends n sizes completed) := by
  induction sizes generalizing n completed with
  | nil =>
    obtain rfl : n = 0 := by simpa using hn
    exact ⟨hs,rfl,Nat.le_refl _,rfl,by simp⟩
  | cons front rest ih =>
    obtain ⟨hf,hrest⟩ := List.forall_mem_cons.mp hs
    rw [List.sum_cons] at hn
    rcases Nat.eq_zero_or_pos n with rfl | hpos
    · rw [completeSends_none]
      refine ⟨hs,rfl,Nat.le_refl _,rfl,fun k _ => ?_⟩
      rw [List.take_succ_cons,List.sum_cons]
      omega
    by_cases h1 : front ≤ n
    · rw [completeSends_front h1 rest completed hpos]
      have hrec := ih (n := n-front) (completed+1) hrest (by omega)
      have hsum := hrec.sum
      have hadv := hrec.advances
      have hlen := hrec.length
      refine ⟨hrec.positive,?_,by omega,?_,fun k hk => ?_⟩
      · rw [List.sum_cons]
        omega
      · rw [List.length_cons]
        omega
      rw [List.take_succ_cons,List.sum_cons]
      cases k with
      | zero =>
        simp only [List.take_zero,List.sum_nil]
        omega
      | succ k =>
        have hk' := hrec.passed k (by simpa using hk)
        omega
    · rw [completeSends_part (by omega) rest completed hpos]
      refine ⟨List.forall_mem_cons.mpr ⟨by omega,hrest⟩,?_,Nat.le_refl _,by simp,fun k _ => ?_⟩
      · simp only [List.sum_cons]
        omega
      · rw [List.take_succ_cons,List.sum_cons]
        dsimp only
        omega

end Completing

/-- `Completion::poll`; both indices are `size_t`. -/
def Completion.poll (c : Completion) (master : Context) : Bool :=
  master.sendCompletedIndex % 2^64 > c.token % 2^64

inductive SendOp where
  | send (buf : List UInt8) (ans : WriteAnswer) (ctl : CtlAnswer)
  | write (ans : WriteAnswer) (ctl : CtlAnswer)
  | shutdown
  | loopPass
  | close (env : CloseEnv)
  deriving DecidableEq, Repr

structure Outbox where
  conn : Conn
  /-- how often `send` has been called -/
  sends : Nat
  /-- how many bytes each queued send left in `output` -/
  left : List Nat
  /-- the `Completion` of each queued send, and the bytes left in `output` up to its last -/
  tickets : List (Completion × Nat)
  /-- how many bytes of `output` the kernel has accepted -/
  drained : Nat
  deriving DecidableEq, Repr

namespace Outbox

def start (h : Handler) (ctl : CtlAnswer) : Outbox := ⟨h.begun ctl,0,[],[],0⟩

def step (h : Handler) (p : Outbox) : SendOp → Option Outbox
  | .send buf ans ctl =>
      let (r,t) := Context.send buf ans ctl p.conn
      let n := (t.output.unread-p.conn.output.unread).toNat
      if n = 0 then some { p with conn := t, sends := p.sends+1 }
      else
        let left := p.left ++ [n]
        let tickets := match r with
          | .ok c => p.tickets ++ [(c,left.sum)]
          | .error _ => p.tickets
        some { p with conn := t, sends := p.sends+1, left, tickets }
  | .write ans ctl =>
      let t := (Handler.handleWrite ans ctl p.conn).2
      some { p with conn := t, drained := p.drained+(t.wire.length-p.conn.wire.length) }
  | .shutdown => some { p with conn := (Context.shutdown p.conn).2 }
  | .loopPass => some { p with conn := (Context.loopPass p.conn).2 }
  | .close env => some { p with conn := (h.handleClose env p.conn).2 }

/-- The entries of `_sendProvider` make up what waits in `output`, the indices
number them, and the write side is asked for just when something waits. -/
structure Balanced (p : Outbox) : Prop where
  positive : Positive p.conn.sendProvider
  sum : (p.conn.sendProvider.sum : Int) = p.conn.output.unread
  indices : p.conn.sendCurrentIndex = p.conn.sendCompletedIndex+p.conn.sendProvider.length
  armed : writeEnabled p.conn.events = true ↔ 0 < p.conn.output.unread

/-- A `Completion` polls true just when the kernel has every byte up to the last
of its send. -/
def Kept (p : Outbox) : Prop :=
  ∀ c n, (c,n) ∈ p.tickets → (c.poll p.conn.toContext = true ↔ n ≤ p.drained)

end Outbox

namespace Outbox

structure Recorded (p : Outbox) : Prop where
  positive : Positive p.left
  within : p.drained ≤ p.left.sum
  queue : completeSends p.drained p.left 2 = (p.conn.sendProvider,p.conn.sendCompletedIndex)
  unread : p.conn.output.unread+p.drained = p.left.sum
  current : p.conn.sendCurrentIndex = p.left.length+2
  tickets : ∀ c n, (c,n) ∈ p.tickets →
    ∃ k < p.left.length, c.token = 2+k ∧ n = (p.left.take (k+1)).sum

def Armed (s : Conn) : Prop :=
  s.AllOk → s.Open → (writeEnabled s.events = true ↔ 0 < s.output.unread)

section Records
variable {h : Handler} {p : Outbox}

theorem start_recorded (h : Handler) (ctl : CtlAnswer) : (start h ctl).Recorded := by
  unfold start
  rcases begun_cases h ctl with ⟨err,_,hb⟩ | ⟨_,hb⟩ <;> rw [hb]
  · exact ⟨by simp [Positive],Nat.le_refl _,rfl,rfl,rfl,by simp⟩
  · exact ⟨by simp [Positive],Nat.le_refl _,rfl,rfl,rfl,by simp⟩

structure SameQueue (s t : Conn) : Prop where
  unread : t.output.unread = s.output.unread
  provider : t.sendProvider = s.sendProvider
  current : t.sendCurrentIndex = s.sendCurrentIndex
  completed : t.sendCompletedIndex = s.sendCompletedIndex

theorem updateEvents_queue (ctl : CtlAnswer) (s : Conn) : SameQueue s (updateEvents ctl s).2 := by
  obtain ⟨interest,ok,hu⟩ := updateEvents_frame ctl s
  rw [hu]
  constructor <;> rfl

theorem armWrite_queue (ctl : CtlAnswer) (s : Conn) : SameQueue s (Context.armWrite ctl s).2 := by
  rcases armWrite_cases ctl s with ⟨_,ha⟩ | ⟨_,ha⟩ <;> rw [ha]
  · constructor <;> rfl
  · obtain ⟨h1,h2,h3,h4⟩ := updateEvents_queue ctl { s with events := s.events ||| EVENT_WRITE }
    exact ⟨h1,h2,h3,h4⟩

theorem shutdown_queue (s : Conn) : SameQueue s (Context.shutdown s).2 := by
  rcases shutdown_cases s with ⟨_,he⟩ | ⟨_,_,he⟩ | ⟨_,_,he⟩ <;> rw [he] <;> constructor <;> rfl

theorem loopPass_queue (s : Conn) : SameQueue s (Context.loopPass s).2 := by
  rcases loopPass_cases s with ⟨_,he⟩ | ⟨_,_,he⟩ | ⟨_,_,he⟩ <;> rw [he] <;> constructor <;> rfl

theorem callback_closed (cb : Callback) {s : Conn} (hs : s.nState = .disconnected) :
    (cb.exec s).2 = s := by
  have hsend : ∀ buf ans ctl, Follows (Keeps (· = s)) (Context.send buf ans ctl) := by
    intro buf ans ctl
    refine .of_keeps (fun t ht => ?_)
    rw [ht,send_left _ _ _ _ (.inr hs)]
  have hshutdown : Follows (Keeps (· = s)) Context.shutdown := by
    refine .of_keeps (fun t ht => ?_)
    rcases shutdown_cases t with ⟨_,he⟩ | ⟨hc,_,_⟩ | ⟨hc,_,_⟩
    · rw [he,ht]
    · rw [ht,hs] at hc
      cases hc
    · rw [ht,hs] at hc
      cases hc
  exact (callback_follows hsend hshutdown cb).keeps_inv rfl

theorem handleClose_closes (env : CloseEnv) (s : Conn) :
    (h.handleClose env s).2 = s ∨
    (∃ e t, Handler.unwatch env.ctl (Context.shutdown s).2 = (.error e,t) ∧
      (h.handleClose env s).2 = t) ∨
    (∃ t, Handler.unwatch env.ctl (Context.shutdown s).2 = (.ok (),t) ∧
      (h.handleClose env s).2 = t.closed h) := by
  rcases handleClose_cases h env s with ⟨_,he⟩ | ⟨_,e,t,hu,he⟩ | ⟨_,t,hu,he⟩
  · exact .inl (by rw [he])
  · exact .inr (.inl ⟨e,t,hu,by rw [he]⟩)
  · refine .inr (.inr ⟨t,hu,?_⟩)
    rw [he]
    by_cases hf : h.closeFlag = true
    · rw [Act.onlyIf_true hf]
      exact callback_closed env.callback rfl
    · rw [Act.onlyIf_false hf]
      rfl

theorem handleClose_queue (env : CloseEnv) (s : Conn) :
    SameQueue s (h.handleClose env s).2 := by
  have hu := updateEvents_queue env.ctl { (Context.shutdown s).2 with
    events := disableWrite (disableRead (Context.shutdown s).2.events) }
  obtain ⟨h1,h2,h3,h4⟩ := shutdown_queue s
  obtain ⟨g1,g2,g3,g4⟩ := hu
  have hunwatch : SameQueue s (Handler.unwatch env.ctl (Context.shutdown s).2).2 :=
    ⟨g1.trans h1,g2.trans h2,g3.trans h3,g4.trans h4⟩
  rcases handleClose_closes (h := h) env s with he | ⟨e,t,ht,he⟩ | ⟨t,ht,he⟩
  · rw [he]
    constructor <;> rfl
  · rw [he]
    rwa [ht] at hunwatch
  · rw [ht] at hunwatch
    rw [he]
    obtain ⟨k1,k2,k3,k4⟩ := hunwatch
    exact ⟨k1,k2,k3,k4⟩

theorem Recorded.frame (hp : p.Recorded) {t : Conn} (hq : SameQueue p.conn t) :
    Recorded { p with conn := t } := by
  obtain ⟨h1,h2,h3,h4,h5,h6⟩ := hp
  refine ⟨h1,h2,?_,?_,?_,h6⟩
  · rw [h3,hq.provider,hq.completed]
  · rw [← h4,hq.unread]
  · rw [hq.current,h5]

theorem Recorded.push (hp : p.Recorded) {rest : List UInt8} (hpos : 0 < rest.length) {s : Conn}
    (hu : s.output.unread = p.conn.output.unread+rest.length)
    (hprovider : s.sendProvider = p.conn.sendProvider ++ [rest.length])
    (hcurrent : s.sendCurrentIndex = p.conn.sendCurrentIndex+1)
    (hcompleted : s.sendCompletedIndex = p.conn.sendCompletedIndex)
    {tickets : List (Completion × Nat)}
    (ht : ∀ t ∈ tickets, t ∈ p.tickets ∨
      t = (⟨p.conn.sendCurrentIndex⟩,(p.left ++ [rest.length]).sum)) :
    Recorded { p with conn := s, sends := p.sends+1, left := p.left ++ [rest.length], tickets } := by
  have hsum : (p.left ++ [rest.length]).sum = p.left.sum+rest.length := by simp
  have hwithin := hp.within
  constructor
  · rintro n hn
    rcases List.mem_append.mp hn with hn | hn
    · exact hp.positive n hn
    · rwa [List.mem_singleton.mp hn]
  · dsimp only
    omega
  · dsimp only
    rw [completeSends_append hp.positive hp.within,hp.queue,hprovider,hcompleted]
  · have hunread := hp.unread
    dsimp only
    omega
  · simp only [hcurrent,hp.current,List.length_append,List.length_singleton]
  · intro c n hc
    rcases ht _ hc with hc | hc
    · obtain ⟨k,hk,htoken,hn⟩ := hp.tickets c n hc
      refine ⟨k,?_,htoken,?_⟩
      · simp only [List.length_append]
        omega
      · rw [hn,List.take_append_of_le_length (by omega)]
    · cases hc
      refine ⟨p.left.length,by simp,?_,?_⟩
      · rw [hp.current,Nat.add_comm]
      · rw [List.take_of_length_le (by simp)]

theorem send_recorded (hp : p.Recorded) {buf : List UInt8} {ans : WriteAnswer} {ctl : CtlAnswer}
    {q : Outbox} (hstep : p.step h (.send buf ans ctl) = some q) : q.Recorded := by
  -- a send that leaves nothing in the buffer is only counted
  have hquiet : ∀ r t, Context.send buf ans ctl p.conn = (r,t) → SameQueue p.conn t → q.Recorded := by
    intro r t he ht
    have hzero : (t.output.unread-p.conn.output.unread).toNat = 0 := by
      rw [ht.unread,Int.sub_self,Int.toNat_zero]
    simp only [step,he,hzero,if_true,Option.some.injEq] at hstep
    obtain ⟨h1,h2,h3,h4,h5,h6⟩ := hp.frame ht
    exact hstep ▸ ⟨h1,h2,h3,h4,h5,h6⟩
  by_cases hl : p.conn.Left
  · exact hquiet _ _ (send_left _ _ _ _ hl) ⟨rfl,rfl,rfl,rfl⟩
  rcases send_cases buf ans ctl p.conn hl with
    ⟨_,_,he⟩ | ⟨_,_,he⟩ | ⟨_,_,e,o,happ,he⟩ | ⟨_,hlt,o,happ,he⟩
  · exact hquiet _ _ he ⟨rfl,rfl,rfl,rfl⟩
  · exact hquiet _ _ he ⟨rfl,rfl,rfl,rfl⟩
  · exact hquiet _ _ he ⟨Buffer.append_unread_of_error happ,rfl,rfl,rfl⟩
  · have hgrow := Buffer.append_unread_of_ok happ
    have hlen := ans.rest_length buf
    have hpos : 0 < (ans.rest buf).length := by omega
    have harm := armWrite_queue ctl (p.conn.queued (ans.taken buf) (ans.rest buf) o)
    simp only [step] at hstep
    rw [he,Act.bind_apply] at hstep
    cases hr : Context.armWrite ctl (p.conn.queued (ans.taken buf) (ans.rest buf) o) with
    | mk res t =>
    rw [hr] at hstep harm
    have hunread : t.output.unread = p.conn.output.unread+(ans.rest buf).length :=
      harm.unread.trans hgrow
    have hn : (t.output.unread-p.conn.output.unread).toNat = (ans.rest buf).length := by omega
    cases res with
    | error e =>
      simp only [hn,Nat.ne_of_gt hpos,if_false,Option.some.injEq] at hstep
      exact hstep ▸ hp.push hpos hunread harm.provider harm.current harm.completed (fun t ht => .inl ht)
    | ok u =>
      simp only [Act.pure_apply,hn,Nat.ne_of_gt hpos,if_false,Option.some.injEq] at hstep
      refine hstep ▸ hp.push hpos hunread harm.provider harm.current harm.completed (fun t ht => ?_)
      exact (List.mem_append.mp ht).imp_right List.mem_singleton.mp

theorem write_recorded (hp : p.Recorded) {ans : WriteAnswer} {ctl : CtlAnswer} {q : Outbox}
    (hstep : p.step h (.write ans ctl) = some q) : q.Recorded := by
  cases hstep
  have hsame : Recorded { p with drained := p.drained+(p.conn.wire.length-p.conn.wire.length) } := by
    simpa using hp
  generalize htaken : ans.taken p.conn.output.content = taken
  have hle : (taken.length : Int) ≤ p.conn.output.unread := by
    have h1 := ans.taken_length_le p.conn.output.content
    have h2 := p.conn.output.content_length_le
    have h3 := hp.unread
    have h4 := hp.within
    rw [htaken] at h1
    omega
  have hdrained : Recorded { p with
      conn := p.conn.drained taken, drained := p.drained+taken.length } := by
    have hunread := hp.unread
    constructor
    · exact hp.positive
    · dsimp only
      omega
    · dsimp only
      rw [completeSends_add _ _ hp.positive,hp.queue]
      rfl
    · simp only [Conn.drained,Buffer.hasRead_unread]
      omega
    · exact hp.current
    · exact hp.tickets
  have hwire : (p.conn.wire ++ taken).length-p.conn.wire.length = taken.length := by simp
  rcases handleWrite_cases ans ctl p.conn with ⟨_,he⟩ | ⟨_,_,_,he⟩ | ⟨_,_,_,he⟩ | ⟨_,_,he⟩ <;> rw [he]
  · exact hsame
  · exact hsame
  · rw [htaken]
    obtain ⟨interest,ok,hu⟩ := updateEvents_frame ctl
      { p.conn.drained taken with events := disableWrite p.conn.events }
    rw [hu]
    dsimp only [Conn.drained]
    rw [hwire]
    exact hdrained.frame ⟨rfl,rfl,rfl,rfl⟩
  · rw [htaken]
    dsimp only [Conn.drained]
    rw [hwire]
    exact hdrained

theorem Recorded.step (hp : p.Recorded) {op : SendOp} {q : Outbox} (hstep : p.step h op = some q) :
    q.Recorded := by
  cases op with
  | send buf ans ctl => exact send_recorded hp hstep
  | write ans ctl => exact write_recorded hp hstep
  | shutdown =>
    cases hstep
    exact hp.frame (shutdown_queue p.conn)
  | loopPass =>
    cases hstep
    exact hp.frame (loopPass_queue p.conn)
  | close env =>
    cases hstep
    exact hp.frame (handleClose_queue env p.conn)

end Records

section Arming
variable {h : Handler} {s : Conn}

theorem Armed.frame (hs : Armed s) {t : Conn} (hl : s.SameEpoll t) (ho : t.Open → s.Open)
    (hu : t.output.unread = s.output.unread) : Armed t := by
  intro hok hopen
  rw [hl.events,hu]
  refine hs ?_ (ho hopen)
  simpa only [Conn.AllOk,hl.ctls] using hok

theorem start_armed (h : Handler) (ctl : CtlAnswer) : Armed (h.begun ctl) := by
  intro _ _
  have hidle : writeEnabled (enableRead EVENT_NONE) = true ↔
      0 < (Buffer.ofSize Buffer.DEFAULT_SIZE).unread := by decide +kernel
  rcases begun_cases h ctl with ⟨err,_,hb⟩ | ⟨_,hb⟩ <;> rw [hb] <;> exact hidle

theorem send_keeps_armed (hs : Armed s) (hnonneg : 0 ≤ s.output.unread) (buf : List UInt8)
    (ans : WriteAnswer) (ctl : CtlAnswer) : Armed (Context.send buf ans ctl s).2 := by
  by_cases hl : s.Left
  · rwa [send_left _ _ _ _ hl]
  rcases send_cases buf ans ctl s hl with
    ⟨_,_,he⟩ | ⟨_,_,he⟩ | ⟨_,_,e,o,happ,he⟩ | ⟨_,hlt,o,happ,he⟩ <;> rw [he]
  · exact hs
  · exact hs.frame ⟨rfl,rfl,rfl,rfl⟩ id rfl
  · exact hs.frame ⟨rfl,rfl,rfl,rfl⟩ id (Buffer.append_unread_of_error happ)
  · -- the rest is queued, and the write side is asked for in any case
    have hgrow := Buffer.append_unread_of_ok happ
    have hlen := ans.rest_length buf
    rw [bind_pure_state]
    intro _ _
    have hq := armWrite_queue ctl (s.queued (ans.taken buf) (ans.rest buf) o)
    have hpos : 0 < (Context.armWrite ctl (s.queued (ans.taken buf) (ans.rest buf) o)).2.output.unread := by
      rw [hq.unread]
      change 0 < o.unread
      omega
    refine ⟨fun _ => hpos,fun _ => ?_⟩
    rcases armWrite_cases ctl (s.queued (ans.taken buf) (ans.rest buf) o) with ⟨hw,ha⟩ | ⟨_,ha⟩ <;> rw [ha]
    · exact hw
    · obtain ⟨interest,ok,hu⟩ := updateEvents_frame ctl
        { s.queued (ans.taken buf) (ans.rest buf) o with
          events := (s.queued (ans.taken buf) (ans.rest buf) o).events ||| EVENT_WRITE }
      rw [hu]
      exact writeEnabled_or_write _

theorem write_keeps_armed (hs : Armed s) (hnonneg : 0 ≤ s.output.unread) (ans : WriteAnswer)
    (ctl : CtlAnswer) : Armed (Handler.handleWrite ans ctl s).2 := by
  rcases handleWrite_cases ans ctl s with ⟨_,he⟩ | ⟨_,_,_,he⟩ | ⟨_,_,h0,he⟩ | ⟨hw,hn,he⟩ <;> rw [he]
  · exact hs
  · exact hs
  · obtain ⟨interest,ok,hu⟩ := updateEvents_frame ctl
      { s.drained (ans.taken s.output.content) with events := disableWrite s.events }
    rw [hu]
    intro _ _
    have hoff : writeEnabled (disableWrite s.events) = false := writeEnabled_disableWrite s.events
    dsimp only
    rw [hoff,h0]
    decide
  · -- nothing went out, or something is left
    by_cases hzero : (ans.taken s.output.content).length = 0
    · refine hs.frame ⟨rfl,rfl,rfl,rfl⟩ id ?_
      simp only [Conn.drained,Buffer.hasRead_unread,hzero]
      omega
    · intro _ _
      have hle := ans.taken_length_le s.output.content
      have hcontent := s.output.content_length_le
      have hunread : (s.drained (ans.taken s.output.content)).output.unread =
          s.output.unread-(ans.taken s.output.content).length := Buffer.hasRead_unread _ _
      refine ⟨fun _ => ?_,fun _ => hw⟩
      have hne : (s.drained (ans.taken s.output.content)).output.unread ≠ 0 :=
        fun h0 => hn ⟨by omega,h0⟩
      dsimp only
      omega

theorem close_keeps_armed (hs : Armed s) (env : CloseEnv) : Armed (h.handleClose env s).2 := by
  rcases handleClose_closes (h := h) env s with he | ⟨e,t,ht,he⟩ | ⟨t,ht,he⟩ <;> rw [he]
  · exact hs
  · -- an `::epoll_ctl` has failed
    intro hok _
    exfalso
    have hu : updateEvents env.ctl { (Context.shutdown s).2 with
        events := disableWrite (disableRead (Context.shutdown s).2.events) } = (.error e,t) := ht
    rcases updateEvents_cases env.ctl { (Context.shutdown s).2 with
        events := disableWrite (disableRead (Context.shutdown s).2.events) } with ⟨_,_,hc⟩ | ⟨_,err,hc⟩
    · rw [hc] at hu
      cases hu
    · rw [hc] at hu
      cases hu
      have hlast := hok _ (List.mem_append_right _ (List.mem_singleton_self _))
      cases hlast
  · intro _ hopen
    rcases hopen with ho | ho <;> cases ho

end Arming

section Runs
variable {h : Handler} {p q : Outbox}

theorem step_armed (hp : p.Recorded) (hs : Armed p.conn) {op : SendOp}
    (hstep : p.step h op = some q) : Armed q.conn := by
  have hnonneg : 0 ≤ p.conn.output.unread := by
    have h1 := hp.unread
    have h2 := hp.within
    omega
  cases op with
  | send buf ans ctl =>
    have ht := send_keeps_armed hs hnonneg buf ans ctl
    have hconn : q.conn = (Context.send buf ans ctl p.conn).2 := by
      simp only [step] at hstep
      split at hstep <;> cases hstep <;> rfl
    rwa [hconn]
  | write ans ctl =>
    cases hstep
    exact write_keeps_armed hs hnonneg ans ctl
  | shutdown =>
    cases hstep
    obtain ⟨hl,ho⟩ := shutdown_epoll p.conn
    exact hs.frame hl ho.mp (shutdown_queue p.conn).unread
  | loopPass =>
    cases hstep
    rcases loopPass_cases p.conn with ⟨_,he⟩ | ⟨_,_,he⟩ | ⟨_,_,he⟩ <;>
      exact hs.frame (by rw [he]; constructor <;> rfl) (by rw [he]; exact id)
        (loopPass_queue p.conn).unread
  | close env =>
    cases hstep
    exact close_keeps_armed hs env

theorem Recorded.balanced (hp : p.Recorded) (hs : Armed p.conn) (hok : p.conn.AllOk)
    (hopen : p.conn.Open) : p.Balanced := by
  have hc := completeSends_completes 2 hp.positive hp.within
  rw [hp.queue] at hc
  have hsum := hc.sum
  have hlength := hc.length
  have hunread := hp.unread
  have hcurrent := hp.current
  refine ⟨hc.positive,?_,?_,hs hok hopen⟩
  · dsimp only at hsum
    omega
  · dsimp only at hlength
    omega

theorem Recorded.kept (hp : p.Recorded) (hfew : p.left.length+2 < 2^64) : p.Kept := by
  have hc := completeSends_completes 2 hp.positive hp.within
  rw [hp.queue] at hc
  have hlength := hc.length
  dsimp only at hlength
  intro c n ht
  obtain ⟨k,hk,htoken,rfl⟩ := hp.tickets c n ht
  rw [Completion.poll,decide_eq_true_iff,Nat.mod_eq_of_lt (by omega),Nat.mod_eq_of_lt (by omega),
    htoken]
  exact hc.passed k hk

/-- As long as fewer than 2^64-2 sends have had to queue, the queue of sends
accounts for the bytes that wait in an open connection. -/
theorem send_queue_balanced (h : Handler) (ctl : CtlAnswer) (p : Outbox)
    (hrun : Path (step h) Any (start h ctl) p) (hok : p.conn.AllOk) (hopen : p.conn.Open) :
    p.Balanced ∧ (p.left.length < 2^64-2 → p.Kept) := by
  obtain ⟨hp,hs⟩ := hrun.keeps (I := fun p => p.Recorded ∧ Armed p.conn)
    (fun _ _ _ _ hstep hi => ⟨hi.1.step hstep,step_armed hi.1 hi.2 hstep⟩)
    ⟨start_recorded h ctl,start_armed h ctl⟩
  exact ⟨hp.balanced hs hok hopen,fun hfew => hp.kept (by omega)⟩

/-- Two sends queue two bytes each, three of the four go out, and the context is shut down. -/
theorem send_queue_balanced_shut : ∃ p : Outbox, p.tickets = [(⟨2⟩,2),(⟨3⟩,4)] ∧ p.drained = 3 ∧
    p.conn.nState = .disconnecting ∧ p.Balanced ∧ (p.left.length < 2^64-2 → p.Kept) := by
  have hrun : (run (step .all) Any (start .all none) [.send [7,8,9] (.accepts 1) none,
      .send [1,2] (.fails EAGAIN) none,.write (.accepts 3) none,.shutdown]).any
      (fun p => p.conn.AllOk ∧ p.tickets = [(⟨2⟩,2),(⟨3⟩,4)] ∧ p.drained = 3 ∧
        p.conn.nState = .disconnecting) := by decide +kernel
  obtain ⟨p,hp,hcond⟩ := (Option.any_eq_true _ _).mp hrun
  obtain ⟨hok,htickets,hdrained,hstate⟩ := of_decide_eq_true hcond
  exact ⟨p,htickets,hdrained,hstate,send_queue_balanced .all none p (run_path hp) hok (.inr hstate)⟩

end Runs

section Wrapping

theorem updateEvents_mod {s : Conn} (he : s.eState = .added) (hi : s.interest.isSome)
    (hn : s.events ≠ EVENT_NONE) : updateEvents none s = (.ok (),{ s with
      interest := some s.events, ctls := s.ctls ++ [s.ctlCall true] }) := by
  obtain ⟨mask,hmask⟩ := Option.isSome_iff_exists.mp hi
  have hnext : updateEventState s.eState s.events = (.added,.mod) := by simp [updateEventState,he,hn]
  rcases updateEvents_cases none s with ⟨_,_,hu⟩ | ⟨hno,_⟩
  · rw [hu,hnext,← he]
    rfl
  · exact absurd ⟨by simp [hnext,hmask,EpollOperationHint.legal],rfl⟩ hno

theorem allOk_append {s t : Conn} {c : CtlCall} (hs : s.AllOk) (hc : c.ok = true)
    (ht : t.ctls = s.ctls ++ [c]) : t.AllOk := by
  intro d hd
  rw [ht] at hd
  rcases List.mem_append.mp hd with hd | hd
  · exact hs d hd
  · rwa [List.mem_singleton.mp hd]

structure Ready (s : Conn) (events : EventBitmap) : Prop where
  nState : s.nState = .connected
  eState : s.eState = .added
  interest : s.interest.isSome
  events : s.events = events
  wf : s.output.Wf
  allOk : s.AllOk

theorem send_queues {s : Conn} (hs : Ready s EVENT_READ) (hu : s.output.unread = 0) :
    ∃ t, Context.send [0] (.accepts 0) none s = (.ok ⟨s.sendCurrentIndex⟩,t) ∧
      Ready t (EVENT_READ ||| EVENT_WRITE) ∧ t.output.unread = 1 := by
  have hopen : ¬s.Left := by simp [Conn.Left,hs.nState]
  have hrest : WriteAnswer.rest (.accepts 0) [(0 : UInt8)] = [0] := rfl
  have hroom : s.output.unread+[(0 : UInt8)].length ≤ 2^30 := by
    rw [hu]
    decide
  obtain ⟨b,hb,hwf,_⟩ := hs.wf.append (.inr hroom)
  rcases send_cases [0] (.accepts 0) none s hopen with
    ⟨_,hf,_⟩ | ⟨_,hfull,_⟩ | ⟨_,_,e,o,happ,_⟩ | ⟨_,_,o,happ,he⟩
  · cases hf.1
  · cases hfull
  · rw [hrest,hb] at happ
    cases happ
  · rw [hrest,hb] at happ
    cases happ
    have hgrow := Buffer.append_unread_of_ok hb
    rw [hrest] at he
    rcases armWrite_cases none (s.queued [] [0] b) with ⟨hw,_⟩ | ⟨_,ha⟩
    · have hoff : writeEnabled s.events = false := by rw [hs.events]; decide
      exact absurd (hoff.symm.trans hw) (by decide)
    · have hne : s.events ||| EVENT_WRITE ≠ EVENT_NONE := by rw [hs.events]; decide
      have harm := updateEvents_mod (s := { s.queued [] [0] b with
        events := s.events ||| EVENT_WRITE }) hs.eState hs.interest hne
      refine ⟨_,he.trans (Act.bind_of_ok (ha.trans harm)),?_,?_⟩
      · exact ⟨hs.nState,hs.eState,rfl,congrArg (· ||| EVENT_WRITE) hs.events,hwf,allOk_append hs.allOk rfl rfl⟩
      · exact hgrow.trans (congrArg (· + 1) hu)

theorem write_drains {s : Conn} (hs : Ready s (EVENT_READ ||| EVENT_WRITE))
    (hu : s.output.unread = 1) : ∃ t, (Handler.handleWrite (.accepts 1) none s).2 = t ∧
      Ready t EVENT_READ ∧ t.output.unread = 0 := by
  have hlen := hs.wf.content_length
  have htaken : (WriteAnswer.taken (.accepts 1) s.output.content).length = 1 := by
    simp only [WriteAnswer.taken,List.length_take]
    omega
  have hdrained : (s.drained (WriteAnswer.taken (.accepts 1) s.output.content)).output.unread = 0 := by
    simp only [Conn.drained,Buffer.hasRead_unread,htaken,hu]
    rfl
  have hon : writeEnabled s.events = true := by rw [hs.events]; decide
  rcases handleWrite_cases (.accepts 1) none s with
    ⟨hw,_⟩ | ⟨_,_,hf,_⟩ | ⟨_,_,_,he⟩ | ⟨_,hn,_⟩
  · exact absurd (hon.symm.trans hw) (by decide)
  · cases hf.1
  · have hoff : disableWrite s.events = EVENT_READ := by rw [hs.events]; decide
    have hread : EVENT_READ ≠ EVENT_NONE := by decide
    rw [hoff] at he
    have harm := updateEvents_mod (s := { s.drained (WriteAnswer.taken (.accepts 1) s.output.content) with
      events := EVENT_READ }) hs.eState hs.interest hread
    refine ⟨_,congrArg Prod.snd (he.trans harm),?_,hdrained⟩
    refine ⟨hs.nState,hs.eState,rfl,rfl,?_,allOk_append hs.allOk rfl rfl⟩
    exact hs.wf.hasRead (by rw [hu,htaken]; decide)
  · exact absurd ⟨by omega,hdrained⟩ hn

structure Idle (p : Outbox) (n : Nat) : Prop where
  recorded : p.Recorded
  ready : Ready p.conn EVENT_READ
  unread : p.conn.output.unread = 0
  sends : p.sends = n
  left : p.left.length = n
  ticket : n ≠ 0 → (⟨n+1⟩,p.left.sum) ∈ p.tickets

theorem Idle.round {p : Outbox} {n : Nat} (hp : p.Idle n) :
    ∃ q, Path (step .all) Any p q ∧ q.Idle (n+1) := by
  obtain ⟨s,hsend,hs,hu⟩ := send_queues hp.ready hp.unread
  obtain ⟨t,hwrite,ht,hv⟩ := write_drains hs hu
  let p' : Outbox := { p with
    conn := s
    sends := p.sends+1
    left := p.left ++ [1]
    tickets := p.tickets ++ [(⟨p.conn.sendCurrentIndex⟩,(p.left ++ [1]).sum)] }
  have hn : (s.output.unread-p.conn.output.unread).toNat = 1 := by
    rw [hu,hp.unread]
    rfl
  have h1 : p.step .all (.send [0] (.accepts 0) none) = some p' := by
    simp only [step,hsend,hn]
    rfl
  let q : Outbox := { p' with
    conn := t, drained := p.drained+(t.wire.length-s.wire.length) }
  have h2 : p'.step .all (.write (.accepts 1) none) = some q := by
    simp only [step,p',hwrite]
    rfl
  have hrec : q.Recorded := (hp.recorded.step h1).step h2
  have hpath : Path (step .all) Any p p' := Path.next .refl trivial h1
  refine ⟨q,hpath.next trivial h2,hrec,ht,hv,?_,?_,fun _ => ?_⟩
  · simp only [q,p',hp.sends]
  · simp only [q,p',List.length_append,List.length_singleton,hp.left]
  · refine List.mem_append_right _ (List.mem_singleton.mpr ?_)
    rw [hp.recorded.current,hp.left]

theorem start_idle : (start .all none).Idle 0 := by
  have hstart : Ready (Handler.all.begun none) EVENT_READ ∧
      (Handler.all.begun none).output.unread = 0 := by
    rcases begun_cases .all none with ⟨_,hn,_⟩ | ⟨_,hb⟩
    · cases hn
    · rw [hb]
      refine ⟨⟨rfl,rfl,rfl,?_,Buffer.ofSize_wf _,?_⟩,rfl⟩
      · change enableRead EVENT_NONE = EVENT_READ
        decide
      · simp [Conn.AllOk,Conn.ctlCall]
  exact ⟨start_recorded .all none,hstart.1,hstart.2,rfl,rfl,fun h => absurd rfl h⟩

theorem idle_reached (n : Nat) : ∃ p, Path (step .all) Any (start .all none) p ∧ p.Idle n := by
  induction n with
  | zero => exact ⟨_,.refl,start_idle⟩
  | succ n ih =>
    obtain ⟨p,hpath,hp⟩ := ih
    obtain ⟨q,hround,hq⟩ := hp.round
    exact ⟨q,hpath.trans hround,hq⟩

/-- When 2^64-2 sends have queued and gone out, the completed index wraps to 0 and
the last `Completion` polls false. -/
theorem completion_wraps : ¬∀ (h : Handler) (ctl : CtlAnswer) (p : Outbox),
    Path (step h) Any (start h ctl) p → p.conn.AllOk → p.conn.Open → p.sends < 2^64 →
      p.Balanced ∧ p.Kept := by
  intro hall
  obtain ⟨p,hpath,hp⟩ := idle_reached (2^64-2)
  obtain ⟨hbal,hkept⟩ := hall .all none p hpath hp.ready.allOk (.inl hp.ready.nState)
    (by rw [hp.sends]; decide)
  have hprovider : p.conn.sendProvider.length = 0 := by
    have hsum := hbal.sum
    rw [hp.unread] at hsum
    rcases hq : p.conn.sendProvider with _ | ⟨n,rest⟩
    · rfl
    · have hpos := hbal.positive n (by simp [hq])
      rw [hq,List.sum_cons] at hsum
      omega
  have hcompleted : p.conn.sendCompletedIndex = 2^64 := by
    have hcurrent := hp.recorded.current
    have hindices := hbal.indices
    rw [hp.left] at hcurrent
    omega
  have hdrained : p.left.sum ≤ p.drained := by
    have hunread := hp.recorded.unread
    rw [hp.unread] at hunread
    omega
  have hpoll := (hkept _ _ (hp.ticket (by decide))).mpr hdrained
  rw [Completion.poll,hcompleted] at hpoll
  exact absurd hpoll (by decide)

end Wrapping
end Outbox
end FluentNet
