import FluentNet.Handler.Steps
set_option autoImplicit false

/-!
The life of a connection as an automaton over its effects, and what follows for
its states and callbacks.
-/

namespace FluentNet
open Throwing Runs Relation

inductive Phase where
  | connecting | opened | connected | disconnecting | disconnected | closed
  deriving DecidableEq, Repr

def Phase.state : Phase → NetworkState
  | .connecting => .connecting
  | .opened | .connected => .connected
  | .disconnecting => .disconnecting
  | .disconnected | .closed => .disconnected

def Phase.next : Phase → Effect → Option Phase
  | .connecting,.entered .connected => some .opened
  | .opened,.connect => some .connected
  | .opened,.message => some .connected
  | .opened,.shutWr _ => some .opened
  | .opened,.entered .disconnecting => some .disconnecting
  | .connected,.message => some .connected
  | .connected,.shutWr _ => some .connected
  | .connected,.entered .disconnecting => some .disconnecting
  | .disconnecting,.message => some .disconnecting
  | .disconnecting,.shutWr _ => some .disconnecting
  | .disconnecting,.entered .disconnected => some .disconnected
  | .disconnected,.close => some .closed
  | _,_ => none

def Phase.after (log : List Effect) : Option Phase := run Phase.next Any .connecting log

def entered : List Effect → List NetworkState
  | [] => []
  | .entered n :: log => n :: entered log
  | _ :: log => entered log

def callbacks : List Effect → List Effect
  | [] => []
  | .connect :: log => .connect :: callbacks log
  | .message :: log => .message :: callbacks log
  | .close :: log => .close :: callbacks log
  | _ :: log => callbacks log

section Logs

@[simp] theorem entered_append (l k : List Effect) : entered (l ++ k) = entered l ++ entered k := by
  induction l with
  | nil => rfl
  | cons e l ih => cases e <;> simp [entered,ih]

@[simp] theorem callbacks_append (l k : List Effect) :
    callbacks (l ++ k) = callbacks l ++ callbacks k := by
  induction l with
  | nil => rfl
  | cons e l ih => cases e <;> simp [callbacks,ih]

theorem after_snoc {log : List Effect} {p q : Phase} {e : Effect}
    (h : Phase.after log = some p) (hq : p.next e = some q) :
    Phase.after (log ++ [e]) = some q := by
  rw [Phase.after] at h
  simp [Phase.after,run_append,h,run,hq,Any]

theorem close_mem_callbacks (log : List Effect) : .close ∈ callbacks log ↔ .close ∈ log := by
  induction log with
  | nil => rfl
  | cons e log ih => cases e <;> simp [callbacks,ih]

end Logs

def Chat (trace : List Effect) : Prop :=
  ∃ c m, c ≤ 1 ∧ trace = List.replicate c .connect ++ List.replicate m .message

theorem chat_nil : Chat [] := ⟨0,0,by omega,rfl⟩

theorem chat_connect : Chat [.connect] := ⟨1,0,by omega,rfl⟩

theorem Chat.message {trace : List Effect} (h : Chat trace) : Chat (trace ++ [.message]) := by
  obtain ⟨c,m,hc,rfl⟩ := h
  exact ⟨c,m+1,hc,by rw [List.replicate_succ',List.append_assoc]⟩

theorem Chat.no_close {trace : List Effect} (h : Chat trace) : .close ∉ trace := by
  obtain ⟨c,m,_,rfl⟩ := h
  simp [List.mem_replicate]

def Phase.Word (p : Phase) (log : List Effect) : Prop :=
  match p with
  | .connecting => entered log = [] ∧ callbacks log = []
  | .opened => entered log = [.connected] ∧ callbacks log = []
  | .connected => entered log = [.connected] ∧ Chat (callbacks log)
  | .disconnecting => entered log = [.connected,.disconnecting] ∧ Chat (callbacks log)
  | .disconnected => ∃ pre, log = pre ++ [.entered .disconnected] ∧
      entered pre = [.connected,.disconnecting] ∧ Chat (callbacks pre)
  | .closed => ∃ pre, log = pre ++ [.entered .disconnected,.close] ∧
      entered pre = [.connected,.disconnecting] ∧ Chat (callbacks pre)

theorem Phase.word_next {log : List Effect} {p q : Phase} {e : Effect}
    (hq : p.next e = some q) (h : p.Word log) : q.Word (log ++ [e]) := by
  cases p with
  | connecting =>
    cases e with
    | entered n =>
      cases n <;> cases hq
      simp only [Phase.Word] at h ⊢
      simp [entered,callbacks,h]
    | _ => cases hq
  | opened =>
    simp only [Phase.Word] at h
    cases e with
    | entered n =>
      cases n <;> cases hq
      simp only [Phase.Word]
      simp [entered,callbacks,h,chat_nil]
    | connect =>
      cases hq
      simp only [Phase.Word]
      simp [entered,callbacks,h,chat_connect]
    | message =>
      cases hq
      simp only [Phase.Word]
      simpa [entered,callbacks,h] using chat_nil.message
    | shutWr unread =>
      cases hq
      simp only [Phase.Word]
      simp [entered,callbacks,h]
    | close => cases hq
  | connected =>
    simp only [Phase.Word] at h
    cases e with
    | entered n =>
      cases n <;> cases hq
      simp only [Phase.Word]
      simp [entered,callbacks,h]
    | message =>
      cases hq
      simp only [Phase.Word]
      simp [entered,callbacks,h,h.2.message]
    | shutWr unread =>
      cases hq
      simp only [Phase.Word]
      simp [entered,callbacks,h]
    | connect | close => cases hq
  | disconnecting =>
    simp only [Phase.Word] at h
    cases e with
    | entered n =>
      cases n <;> cases hq
      exact ⟨log,rfl,h⟩
    | message =>
      cases hq
      simp only [Phase.Word]
      simp [entered,callbacks,h,h.2.message]
    | shutWr unread =>
      cases hq
      simp only [Phase.Word]
      simp [entered,callbacks,h]
    | connect | close => cases hq
  | disconnected =>
    cases e with
    | close =>
      cases hq
      obtain ⟨pre,rfl,hpre⟩ := h
      exact ⟨pre,by simp,hpre⟩
    | entered n => cases n <;> cases hq
    | _ => cases hq
  | closed => cases e <;> cases hq

theorem after_word {log : List Effect} {p : Phase} (h : Phase.after log = some p) : p.Word log := by
  have h0 : Phase.connecting.Word [] := ⟨rfl,rfl⟩
  exact run_induct (I := fun log p => p.Word log) (fun _ _ _ _ _ hq hw => Phase.word_next hq hw) h0 h

structure Conn.Living (h : Handler) (s : Conn) (p : Phase) : Prop where
  after : Phase.after s.log = some p
  state : p.state = s.nState
  begun : p ≠ .connecting
  eof : s.nState = .disconnected → s.eof = true
  close : p.state = .disconnected → (p = .closed ↔ h.closeFlag = true)

section Steps
variable {h : Handler} {s t : Conn}

theorem begun_living (h : Handler) (ctl : CtlAnswer) : ∃ p, (h.begun ctl).Living h p := by
  rcases begun_cases h ctl with ⟨err,_,hb⟩ | ⟨_,hb⟩ <;> rw [hb]
  · exact ⟨.opened,rfl,rfl,by decide,nofun,nofun⟩
  · cases h.connectFlag
    · exact ⟨.opened,rfl,rfl,by decide,nofun,nofun⟩
    · exact ⟨.connected,rfl,rfl,by decide,nofun,nofun⟩

theorem Conn.Living.frame {p : Phase} (hs : s.Living h p) (hl : s.SameLife t) : t.Living h p :=
  ⟨by rw [hl.log]; exact hs.after,by rw [hl.nState]; exact hs.state,hs.begun,
    by rw [hl.nState,hl.eof]; exact hs.eof,hs.close⟩

theorem after_shutWrs {log : List Effect} {p : Phase} (h : Phase.after log = some p)
    (unread : Int) (hp : p.next (.shutWr unread) = some p) (n : Nat) :
    Phase.after (log ++ List.replicate n (.shutWr unread)) = some p := by
  induction n with
  | zero => simpa using h
  | succ n ih =>
    rw [List.replicate_succ',← List.append_assoc]
    exact after_snoc ih hp

theorem Conn.Living.connected {p : Phase} (hs : s.Living h p) (hc : s.nState = .connected) :
    p = .opened ∨ p = .connected := by
  have hp := hs.state
  rw [hc] at hp
  cases p <;> simp [Phase.state] at hp ⊢

theorem Conn.Living.disconnecting {p : Phase} (hs : s.Living h p)
    (hc : s.nState = .disconnecting) : p = .disconnecting := by
  have hp := hs.state
  rw [hc] at hp
  cases p <;> simp [Phase.state] at hp ⊢

theorem Conn.Living.shutdown {p : Phase} (hs : s.Living h p) :
    ∃ q, (Context.shutdown s).2.Living h q := by
  have hnext : s.nState = .connected → p.next (.entered .disconnecting) = some .disconnecting := by
    intro hc
    rcases hs.connected hc with rfl | rfl <;> rfl
  rcases shutdown_cases s with ⟨_,he⟩ | ⟨hc,_,he⟩ | ⟨hc,_,he⟩ <;> rw [he]
  · exact ⟨p,hs⟩
  · exact ⟨.disconnecting,after_snoc hs.after (hnext hc),rfl,by decide,nofun,nofun⟩
  · have hafter := after_snoc (e := .shutWr s.output.unread) (after_snoc hs.after (hnext hc)) rfl
    rw [List.append_assoc] at hafter
    exact ⟨.disconnecting,hafter,rfl,by decide,nofun,nofun⟩

theorem Conn.Living.loopPass {p : Phase} (hs : s.Living h p) :
    ∃ q, (Context.loopPass s).2.Living h q := by
  rcases loopPass_cases s with ⟨_,he⟩ | ⟨_,_,he⟩ | ⟨hc,_,he⟩ <;> rw [he]
  · exact ⟨p,hs.after,hs.state,hs.begun,hs.eof,hs.close⟩
  · exact ⟨p,hs⟩
  · refine ⟨p,after_shutWrs hs.after s.output.unread ?_ s.deferred,hs.state,hs.begun,hs.eof,hs.close⟩
    rcases hs.connected hc with rfl | rfl <;> rfl

theorem Conn.Living.message {p : Phase} (hs : s.Living h p) (heof : s.eof = false) :
    ∃ q, Conn.Living h { s with log := s.log ++ [.message] } q := by
  have hopen : s.nState ≠ .disconnected := by
    intro hd
    exact absurd (heof.symm.trans (hs.eof hd)) (by decide)
  rw [← hs.state] at hopen
  have hnext : ∃ q, p.next .message = some q ∧ q.state = p.state ∧ q ≠ .connecting := by
    have hb := hs.begun
    cases p <;> simp [Phase.next,Phase.state] at hb hopen ⊢
  obtain ⟨q,hq,hstate,hq0⟩ := hnext
  exact ⟨q,after_snoc hs.after hq,hstate.trans hs.state,hq0,hs.eof,
    fun hd => absurd (hstate.symm.trans hd) hopen⟩

theorem Conn.Living.closed {p : Phase} (hs : s.Living h p) (hd : s.nState = .disconnecting)
    (heof : s.eof = true) : ∃ q, (s.closed h).Living h q := by
  have hp := hs.disconnecting hd
  subst hp
  have hentered := after_snoc (e := .entered .disconnected) hs.after rfl
  cases hf : h.closeFlag with
  | false =>
    refine ⟨.disconnected,?_,rfl,by decide,fun _ => heof,by simp [hf]⟩
    simpa [Conn.closed,hf] using hentered
  | true =>
    refine ⟨.closed,?_,rfl,by decide,fun _ => heof,by simp [hf]⟩
    have hafter := after_snoc (e := .close) hentered rfl
    simpa [Conn.closed,hf] using hafter

theorem Micro.living {p : Phase} (hm : Micro h True s t) (hs : s.Living h p) :
    ∃ q, t.Living h q := by
  cases hm with
  | send buf ans ctl => exact ⟨p,hs.frame (send_life buf ans ctl s)⟩
  | shutdown => exact hs.shutdown
  | loopPass => exact hs.loopPass
  | write ans ctl => exact ⟨p,hs.frame (handleWrite_life ans ctl s)⟩
  | read ans =>
    rcases readInput_cases ans s with ⟨i,e,he,_⟩ | ⟨i,n,he,_⟩ <;> rw [he]
    · exact ⟨p,hs.after,hs.state,hs.begun,hs.eof,hs.close⟩
    · exact ⟨p,hs.after,hs.state,hs.begun,fun hd => by simp [hs.eof hd],hs.close⟩
  | hangUp => exact ⟨p,hs.after,hs.state,hs.begun,fun _ => rfl,hs.close⟩
  | message _ heof => exact hs.message (heof trivial)
  | unwatch ctl e _ hu => exact ⟨p,hs.frame (unwatch_life hu)⟩
  | close ctl hd heof hu =>
    have hl := unwatch_life hu
    exact (hs.frame hl).closed (hl.nState.trans hd) (hl.eof.trans (heof trivial))
  | caught e => exact ⟨p,hs.after,hs.state,hs.begun,hs.eof,hs.close⟩

end Steps

structure Conn.Protocol (h : Handler) (t : Conn) : Prop where
  forward : entered t.log <+: [.connected,.disconnecting,.disconnected]
  current : (entered t.log).getLast? = some t.nState
  trace : ∃ chat d, Chat chat ∧ d ≤ 1 ∧ callbacks t.log = chat ++ List.replicate d .close
  closing : if h.closeFlag = true ∧ t.nState = .disconnected
    then ∃ pre, t.log = pre ++ [.entered .disconnected,.close] ∧ .close ∉ pre
    else .close ∉ t.log
  sends : t.Left → ∀ buf ans ctl, (Context.send buf ans ctl t).2 = t

theorem Conn.Living.protocol {h : Handler} {t : Conn} {p : Phase} (hs : t.Living h p) :
    t.Protocol h := by
  have hw := after_word hs.after
  have hstate := hs.state.symm
  have hsends : t.Left → ∀ buf ans ctl, (Context.send buf ans ctl t).2 = t :=
    fun hl buf ans ctl => by rw [send_left buf ans ctl t hl]
  have hopen : ∀ l : List Effect, Chat (callbacks l) → .close ∉ l :=
    fun l hc => mt (close_mem_callbacks l).mpr hc.no_close
  cases p with
  | connecting => exact absurd rfl hs.begun
  | opened =>
    obtain ⟨he,hc⟩ := hw
    have hno := hopen t.log (hc ▸ chat_nil)
    exact ⟨by simp [he],by simp [he,hstate,Phase.state],⟨[],0,chat_nil,by omega,by simp [hc]⟩,
      by simpa [hstate,Phase.state] using hno,hsends⟩
  | connected =>
    obtain ⟨he,hc⟩ := hw
    exact ⟨by simp [he],by simp [he,hstate,Phase.state],⟨_,0,hc,by omega,by simp⟩,
      by simpa [hstate,Phase.state] using hopen t.log hc,hsends⟩
  | disconnecting =>
    obtain ⟨he,hc⟩ := hw
    exact ⟨by simp [he],by simp [he,hstate,Phase.state],⟨_,0,hc,by omega,by simp⟩,
      by simpa [hstate,Phase.state] using hopen t.log hc,hsends⟩
  | disconnected =>
    obtain ⟨pre,hlog,he,hc⟩ := hw
    have hflag : h.closeFlag = false := by simpa using hs.close rfl
    exact ⟨by simp [hlog,he,entered],by simp [hlog,he,hstate,Phase.state,entered],
      ⟨_,0,hc,by omega,by simp [hlog,callbacks]⟩,by simpa [hflag,hlog] using hopen pre hc,hsends⟩
  | closed =>
    obtain ⟨pre,hlog,he,hc⟩ := hw
    have hflag : h.closeFlag = true := by simpa using hs.close rfl
    exact ⟨by simp [hlog,he,entered],by simp [hlog,he,hstate,Phase.state,entered],
      ⟨_,1,hc,by omega,by simp [hlog,callbacks]⟩,
      by simpa [hflag,hstate,Phase.state] using ⟨pre,hlog,hopen pre hc⟩,hsends⟩

/-- What reaches a connection from its server: events, under what the kernel
promises about the end of a stream, user calls and passes of the looper. -/
def Op.Served (s : Conn) : Op → Prop
  | .event revent env => s.Quiet revent env
  | .call _ | .loopPass => True
  | _ => False

instance (s : Conn) (op : Op) : Decidable (op.Served s) :=
  match op with
  | .event revent env => inferInstanceAs (Decidable (s.Quiet revent env))
  | .call _ | .loopPass => .isTrue trivial
  | .handleNewContext _ _ | .handleWrite _ _ | .handleClose _ | .interest _ _ => .isFalse id

theorem Op.Served.allowed {s : Conn} {op : Op} (hop : op.Served s) :
    op.Running ∧ (True → op.Quiet s) := by
  cases op with
  | event => exact ⟨trivial,fun _ => hop⟩
  | call => exact ⟨trivial,fun _ => trivial⟩
  | loopPass => exact ⟨trivial,fun _ => trivial⟩
  | handleNewContext => exact hop.elim
  | handleWrite => exact hop.elim
  | handleClose => exact hop.elim
  | interest => exact hop.elim

/-- A connection moves forward through its states and calls back in order, whatever
happens to it on the way. -/
theorem connection_life (h : Handler) (ctl : CtlAnswer) (cb : Callback) {s t : Conn}
    (hs : Path (Conn.step h) Op.Served (h.handleNewContext ctl cb Conn.init).2 s)
    (ht : Path (Conn.step h) Op.Served s t) :
    t.Protocol h ∧ s.nState.rank ≤ t.nState.rank := by
  have hpath := ops_path (fun _ _ hop => hop.allowed) ht
  have hbefore := ops_path (fun _ _ hop => hop.allowed) hs
  obtain ⟨p,hp⟩ := path_keeps (I := fun s => ∃ p, s.Living h p)
    (fun _ _ hm ⟨_,hp⟩ => hm.living hp)
    (((handleNewContext_path ctl cb).trans hbefore).trans hpath) (begun_living h ctl)
  have hrank := path_keeps (I := fun u => s.nState.rank ≤ u.nState.rank)
    (fun _ _ hm hi => Nat.le_trans hi hm.rank) hpath (Nat.le_refl _)
  exact ⟨hp.protocol,hrank⟩

def EventEnv.reading (read : ReadAnswer) : EventEnv where
  hup := ⟨none,.silent⟩
  read
  message := .silent
  fin := ⟨none,.silent⟩
  write := .accepts 0
  ctl := none

theorem connection_life_closed : ∃ t : Conn, callbacks t.log = [.connect,.message,.close] ∧
    t.Protocol .all ∧ (Handler.all.begun none).nState.rank ≤ t.nState.rank := by
  have hrun : (run (Conn.step .all) Op.Served (Handler.all.begun none)
      [.event POLLIN (.reading (.data [7])),.event POLLIN (.reading (.data []))]).any
      (fun t => callbacks t.log = [.connect,.message,.close]) := by decide +kernel
  obtain ⟨t,ht,hlog⟩ := (Option.any_eq_true _ _).mp hrun
  exact ⟨t,of_decide_eq_true hlog,connection_life .all none .silent .refl (run_path ht)⟩

end FluentNet
