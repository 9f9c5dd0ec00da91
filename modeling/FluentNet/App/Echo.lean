import FluentNet.Handler.Linked
import FluentNet.Handler.Session
import FluentNet.Network.BufferQueue
import FluentNet.Library.Streams
set_option autoImplicit false

/-!
The echo server and its client: what one of them sends comes back from the other
as it was sent.
-/

namespace FluentNet
open Throwing Runs Ledger Streams

namespace Echo
open Session

/-- What the server's `onMessage` and the client's `poll` have in common; the state is
what was written to `STDOUT_FILENO`. -/
def back (ans : WriteAnswer) (ctl : CtlAnswer) : SessionAct (List UInt8) Unit := do
  let s ← Act.get
  Act.onlyIf (s.conn.input.unread ≠ 0) (do
    let _ ← onConn (Context.send s.conn.input.content ans ctl)
    Act.modify (fun s => { s with user := s.user ++ s.conn.input.content })
    Act.modify (fun s => { s with
      conn := { s.conn with input := s.conn.input.hasRead s.conn.input.unread } }))

/-- What is read, of which `P` holds, has been shown or is unread. What was shown, behind
a greeting, is what was sent, as long as the connection is open. -/
structure Echoes (greeting : List UInt8) (P : List UInt8 → Prop) (s : Session (List UInt8)) : Prop where
  source : P s.received
  input : s.conn.input.Wf
  output : s.conn.output.Wf
  shown : s.user ++ s.conn.input.content = s.received
  sent : s.conn.wire ++ s.conn.output.content <+: greeting ++ s.user
  linked : ¬s.conn.Left → Stream.Linked ⟨s.conn,greeting ++ s.user⟩

section Steps
variable {greeting : List UInt8} {P : List UInt8 → Prop} {s : Session (List UInt8)}

def consumed (s : Session (List UInt8)) : Session (List UInt8) :=
  { s with
    user := s.user ++ s.conn.input.content
    conn := { s.conn with input := s.conn.input.hasRead s.conn.input.unread } }

theorem back_cases (ans : WriteAnswer) (ctl : CtlAnswer) (s : Session (List UInt8)) :
    (s.conn.input.unread = 0 ∧ back ans ctl s = (.ok (),s)) ∨
    (∃ e t, Context.send s.conn.input.content ans ctl s.conn = (.error e,t) ∧
      back ans ctl s = (.error e,{ s with conn := t })) ∨
    (∃ c t, Context.send s.conn.input.content ans ctl s.conn = (.ok c,t) ∧
      back ans ctl s = (.ok (),consumed { s with conn := t })) := by
  by_cases hu : s.conn.input.unread = 0
  · refine .inl ⟨hu,?_⟩
    rw [back,Act.get_bind,Act.onlyIf_false (not_not_intro hu)]
    rfl
  refine .inr ?_
  rw [back,Act.get_bind,Act.onlyIf_true hu]
  cases hr : Context.send s.conn.input.content ans ctl s.conn with
  | mk res t =>
    have hsend : onConn (Context.send s.conn.input.content ans ctl) s = (res,{ s with conn := t }) := by
      rw [onConn,Act.zoom_apply,hr]
    cases res with
    | error e => exact .inl ⟨e,t,rfl,Act.bind_of_error hsend⟩
    | ok c => exact .inr ⟨c,t,rfl,Act.bind_of_ok hsend⟩

theorem Echoes.wire (hs : Echoes greeting P s) : s.conn.wire <+: greeting ++ s.user :=
  (List.prefix_append _ _).trans hs.sent

theorem Echoes.mono {Q : List UInt8 → Prop} (hs : Echoes greeting P s) (hq : ∀ x, P x → Q x) :
    Echoes greeting Q s := { hs with source := hq _ hs.source }

theorem Echoes.lengths (hs : Echoes greeting P s) :
    s.conn.wire.length+s.conn.output.content.length ≤ greeting.length+s.user.length ∧
      s.user.length+s.conn.input.content.length = s.received.length ∧
      (s.conn.output.content.length : Int) = s.conn.output.unread ∧
      (s.conn.input.content.length : Int) = s.conn.input.unread := by
  have hsent := hs.sent.length_le
  have hshown := congrArg List.length hs.shown
  rw [List.length_append,List.length_append] at hsent
  rw [List.length_append] at hshown
  exact ⟨hsent,hshown,hs.output.content_length,hs.input.content_length⟩

theorem Echoes.delivers (hs : Echoes greeting P s) : s.conn.Delivers (greeting ++ s.user) :=
  ⟨hs.output,hs.sent,hs.linked⟩

theorem Echoes.delivered {t : Conn} (hs : Echoes greeting P s) (hi : t.input = s.conn.input)
    (ht : t.Delivers (greeting ++ s.user)) : Echoes greeting P { s with conn := t } :=
  ⟨hs.source,by rw [hi]; exact hs.input,ht.output,by rw [← hs.shown,hi],ht.sent,ht.linked⟩

theorem Echoes.handleClose (hs : Echoes greeting P s) (h : Handler) (env : CloseEnv) :
    Echoes greeting P (onConn (h.handleClose env) s).2 :=
  hs.delivered (handleClose_bytes h env s.conn).input (hs.delivers.handleClose h env)

theorem Echoes.frame {t : Conn} (hs : Echoes greeting P s) (hb : s.conn.SameBytes t) (he : s.conn.SameEpoll t)
    (hn : t.nState = s.conn.nState) (hc : t.sendCurrentIndex = s.conn.sendCurrentIndex) :
    Echoes greeting P { s with conn := t } :=
  hs.delivered hb.input (hs.delivers.frame hb.wire hb.output he hn hc)

theorem Echoes.loopPass (hs : Echoes greeting P s) : Echoes greeting P (onConn Context.loopPass s).2 :=
  hs.delivered (loopPass_bytes s.conn).input hs.delivers.loopPass

theorem Echoes.handleWrite (hs : Echoes greeting P s) (ans : WriteAnswer) (ctl : CtlAnswer) :
    Echoes greeting P (onConn (Handler.handleWrite ans ctl) s).2 :=
  hs.delivered (handleWrite_input ans ctl s.conn) (hs.delivers.handleWrite ans ctl)

theorem Echoes.back (hs : Echoes greeting P s) {ans : WriteAnswer} {ctl : CtlAnswer}
    (hturn : ¬s.conn.Left → s.conn.InTurn s.conn.input.content ans ctl) :
    Echoes greeting P (back ans ctl s).2 := by
  have hlen := hs.input.content_length
  have hle : (s.conn.input.content.length : Int) ≤ s.conn.input.unread := Int.le_of_eq hlen
  have hwf := hs.input.hasRead hle
  have hread := hs.input.hasRead_content hle
  rw [hlen,List.drop_length] at hread
  rw [hlen] at hwf
  have hshown : s.user ++ s.conn.input.content ++ (s.conn.input.hasRead s.conn.input.unread).content =
      s.received := by rw [hread,List.append_nil,hs.shown]
  have hinput := send_input s.conn.input.content ans ctl s.conn
  by_cases hl : s.conn.Left
  · have hleft := send_left s.conn.input.content ans ctl s.conn hl
    rcases back_cases ans ctl s with ⟨_,he⟩ | ⟨e,t,hr,_⟩ | ⟨c,t,hr,he⟩
    · rw [he]
      exact hs
    · rw [hleft] at hr
      cases hr
    · rw [hleft] at hr
      cases hr
      rw [he]
      have hmore : greeting ++ s.user <+: greeting ++ (s.user ++ s.conn.input.content) :=
        (List.prefix_append_right_inj _).mpr (List.prefix_append _ _)
      exact ⟨hs.source,hwf,hs.output,hshown,hs.sent.trans hmore,fun ho => absurd hl ho⟩
  have hsent := hs.delivers.send s.conn.input.content ans ctl hturn
  rcases back_cases ans ctl s with ⟨_,he⟩ | ⟨e,t,hr,he⟩ | ⟨c,t,hr,he⟩ <;> rw [he]
  · exact hs
  · rw [hr] at hsent hinput
    simp only [acceptedBy,List.append_nil] at hsent
    exact hs.delivered hinput hsent
  · rw [hr] at hsent hinput
    dsimp only at hsent hinput
    rw [send_accepts hl (hs.linked hl).inv.token hr,List.append_assoc] at hsent
    rw [consumed,hinput]
    have hread' := hsent.frame (t := { t with input := s.conn.input.hasRead s.conn.input.unread }) rfl rfl
      ⟨rfl,rfl,rfl,rfl⟩ rfl rfl
    exact ⟨hs.source,hwf,hread'.output,hshown,hread'.sent,hread'.linked⟩

/-- A read event of a handler `h` that calls back as `back` does: its bytes have room,
and are sent in turn. -/
def Reads (h : Handler) (s : Session (List UInt8)) (read : ReadAnswer) (ans : WriteAnswer) (ctl : CtlAnswer) : Prop :=
  s.conn.input.unread+(read.got s.conn.input).length ≤ 2^30 ∧
    (h.messageFlag = true → read.got s.conn.input ≠ [] → ¬s.conn.Left →
      s.conn.InTurn (s.conn.input.content ++ read.got s.conn.input) ans ctl)

instance (h : Handler) (s : Session (List UInt8)) (read : ReadAnswer) (ans : WriteAnswer) (ctl : CtlAnswer) :
    Decidable (Reads h s read ans ctl) := inferInstanceAs (Decidable (_ ∧ (_ → _ → _ → _)))

variable {h : Handler} {ans : WriteAnswer} {ctl : CtlAnswer}

theorem Echoes.handleRead (hs : Echoes greeting P s) (env : EventEnv)
    (hp : P (s.received ++ env.read.got s.conn.input)) (hreads : Reads h s env.read ans ctl) :
    Echoes greeting P (Session.handleRead h (Echo.back ans ctl) env s).2 := by
  obtain ⟨hroom,hturn⟩ := hreads
  obtain ⟨i,n,hread,hwf,hcontent,hpos⟩ := readInput_got hs.input env.read hroom
  let t : Session (List UInt8) := { s with
    received := s.received ++ env.read.got s.conn.input
    conn := { s.conn with input := i, eof := s.conn.eof || n == 0 } }
  have ht : Echoes greeting P t := by
    refine ⟨hp,hwf,hs.output,?_,hs.sent,fun ho => ?_⟩
    · simp only [t,hcontent]
      rw [← List.append_assoc,hs.shown]
    · obtain ⟨⟨h1,h2,h3,h4,h5,h6⟩,h7⟩ := hs.linked ho
      exact ⟨⟨h1,h2,h3,h4,h5,h6⟩,h7⟩
  refine handleRead_holds h hread ht (fun hn hf => ?_) (ht.handleClose h env.fin)
  let u : Session (List UInt8) := { t with conn := { t.conn with log := t.conn.log ++ [.message] } }
  have hu : Echoes greeting P u := ht.frame ⟨rfl,rfl,rfl⟩ ⟨rfl,rfl,rfl,rfl⟩ rfl rfl
  refine hu.back (fun hl => ?_)
  have hbytes : u.conn.input.content = s.conn.input.content ++ env.read.got s.conn.input := hcontent
  rw [hbytes]
  exact hturn hf (hpos.mp hn) hl

theorem Reads.closed {read : ReadAnswer} (hreads : Reads h s read ans ctl) (env : CloseEnv) :
    Reads h (onConn (h.handleClose env) s).2 read ans ctl := by
  have hrun : (onConn (h.handleClose env) s).2 = { s with conn := (h.handleClose env s.conn).2 } := rfl
  have hinput := (handleClose_bytes h env s.conn).input
  rw [hrun]
  rcases handleClose_left h env s.conn with he | hl
  · rw [he]
    exact hreads
  · refine ⟨?_,fun _ _ ho => absurd hl ho⟩
    dsimp only
    rw [hinput]
    exact hreads.1

theorem Echoes.dispatch (hs : Echoes greeting P s) (revent : EventBitmap) (env : EventEnv)
    (hp : P (s.received ++ env.read.got s.conn.input)) (hreads : Reads h s env.read ans ctl) :
    Echoes greeting P (Session.dispatch h (Echo.back ans ctl) revent env s).2 := by
  refine dispatch_holds (I := Echoes greeting P)
    (A := fun t => P (t.received ++ env.read.got t.conn.input) ∧ Reads h t env.read ans ctl) h ?_ ?_ ?_ ?_ ?_
    revent hs ⟨hp,hreads⟩
  · exact fun t eof ⟨ht,hready⟩ => ⟨ht.frame ⟨rfl,rfl,rfl⟩ ⟨rfl,rfl,rfl,rfl⟩ rfl rfl,hready⟩
  · exact fun e t ht => ht.frame ⟨rfl,rfl,rfl⟩ ⟨rfl,rfl,rfl,rfl⟩ rfl rfl
  · rintro t ⟨ht,hpt,hreadst⟩
    have hinput := (handleClose_bytes h env.hup t.conn).input
    refine ⟨ht.handleClose h env.hup,?_,hreadst.closed env.hup⟩
    rw [onConn,Act.zoom_apply]
    dsimp only
    rw [hinput]
    exact hpt
  · exact fun t ht hready => ht.handleRead env hready.1 hready.2
  · exact fun t ht => ht.handleWrite env.write env.ctl

end Steps

section Server

def server : Handler := ⟨true,true,false⟩

/-- A connection that the server has taken on; its `onConnect` only calls `setNoDelay`,
which may throw. -/
def accepted (throws : Option Exn) : Session (List UInt8) :=
  ⟨(server.handleNewContext none ⟨[],throws⟩ Conn.init).2,[],[]⟩

inductive Label where
  | event (revent : EventBitmap) (env : EventEnv) (ans : WriteAnswer) (ctl : CtlAnswer)
  | loopPass
  deriving DecidableEq, Repr

def step (s : Session (List UInt8)) : Label → Option (Session (List UInt8))
  | .event revent env ans ctl => some (Session.dispatch server (back ans ctl) revent env s).2
  | .loopPass => some (onConn Context.loopPass s).2

def Allowed (s : Session (List UInt8)) : Label → Prop
  | .event _ env ans ctl => Reads server s env.read ans ctl
  | .loopPass => True

instance (s : Session (List UInt8)) : (l : Label) → Decidable (Allowed s l)
  | .event _ env ans ctl => inferInstanceAs (Decidable (Reads server s env.read ans ctl))
  | .loopPass => .isTrue trivial

variable {P : List UInt8 → Prop} {s t : Session (List UInt8)}

theorem begun_echoes (h : Handler) (throws : Option Exn) (hp : P []) :
    Echoes [] P ⟨{ h.begun none with exception := throws },[],[]⟩ := by
  have hbegun := begun_delivers h throws
  rcases begun_cases h none with ⟨_,hn,_⟩ | ⟨_,hb⟩
  · cases hn
  rw [hb] at hbegun ⊢
  exact ⟨hp,Buffer.ofSize_wf _,hbegun.output,rfl,hbegun.sent,hbegun.linked⟩

theorem accepted_echoes (throws : Option Exn) (hp : P []) : Echoes [] P (accepted throws) := by
  have hbegun : accepted throws = ⟨{ server.begun none with exception := throws },[],[]⟩ := by
    cases throws <;> rfl
  rw [hbegun]
  exact begun_echoes server throws hp

/-- Every byte that the server reads is shown once and in order, and what it shows goes
back as it came: nothing else is sent, and while the connection is open nothing is missing. -/
theorem echo_returns {throws : Option Exn} (h : Path Echo.step Allowed (accepted throws) s) :
    s.user ++ s.conn.input.content = s.received ∧ s.conn.wire <+: s.received ∧
      (¬s.conn.Left → s.conn.wire ++ s.conn.output.content ++ s.conn.input.content = s.received) := by
  have hs : Echoes [] (fun _ => True) s := by
    refine h.keeps (I := Echoes [] (fun _ => True)) (fun s l t hl ht hs => ?_) (accepted_echoes throws trivial)
    cases l with
    | event revent env ans ctl =>
      cases ht
      exact hs.dispatch revent env trivial hl
    | loopPass =>
      cases ht
      exact hs.loopPass
  refine ⟨hs.shown,hs.wire.trans ⟨_,hs.shown⟩,fun ho => ?_⟩
  rw [(hs.linked ho).inv.ordered]
  exact hs.shown

def echoed (bytes : List UInt8) : List Label :=
  let reads : EventEnv := ⟨⟨none,.silent⟩,.data bytes,.silent,⟨none,.silent⟩,.accepts 0,none⟩
  let writes : EventEnv := ⟨⟨none,.silent⟩,.fails EAGAIN,.silent,⟨none,.silent⟩,.accepts 1,none⟩
  [.event POLLIN reads (.accepts 1) none,.event POLLOUT writes (.accepts 0) none]

theorem echo_returns_queued : ∃ s : Session (List UInt8), s.conn.wire = [7,8] ∧ s.received = [7,8,9] ∧ s.conn.output.content = [9] ∧
    s.conn.wire ++ s.conn.output.content ++ s.conn.input.content = s.received := by
  have hrun : (run Echo.step Allowed (accepted none) (echoed [7,8,9])).any (fun s =>
      s.conn.wire = [7,8] ∧ s.received = [7,8,9] ∧ s.conn.output.content = [9] ∧ ¬s.conn.Left) := by decide +kernel
  obtain ⟨s,hs,hcond⟩ := (Option.any_eq_true _ _).mp hrun
  obtain ⟨hwire,hreceived,hqueued,hopen⟩ := of_decide_eq_true hcond
  exact ⟨s,hwire,hreceived,hqueued,(echo_returns (run_path hs)).2.2 hopen⟩

end Server

section Growth
variable {σ : Type}

def Grows (s t : Session σ) : Prop := s.conn.wire <+: t.conn.wire

theorem back_grows (ans : WriteAnswer) (ctl : CtlAnswer) : Follows Grows (back ans ctl) := by
  refine .get_bind (fun c => .onlyIf (fun _ => ?_))
  refine Follows.bind (fun s => .single ?_) (fun _ => Follows.bind (Follows.modify (fun _ => List.prefix_rfl))
    (fun _ => Follows.modify (fun _ => List.prefix_rfl)))
  obtain ⟨more,he⟩ := send_wire c.conn.input.content ans ctl s.conn
  exact ⟨more,he.symm⟩

theorem dispatch_grows (h : Handler) {onMessage : SessionAct σ Unit} (hm : Follows Grows onMessage)
    (revent : EventBitmap) (env : EventEnv) : Follows Grows (Session.dispatch h onMessage revent env) := by
  refine dispatch_follows h (fun s conn hb => ⟨[],by rw [hb.wire,List.append_nil]⟩) (fun ans s => .single ?_)
    (fun ans ctl s => .single ?_) hm revent env
  · obtain ⟨i,eof,he⟩ := readInput_only ans s
    exact ⟨[],by rw [he,List.append_nil]⟩
  · obtain ⟨more,he⟩ := handleWrite_wire ans ctl s.conn
    exact ⟨more,he.symm⟩

theorem dispatch_user (h : Handler) (revent : EventBitmap) (env : EventEnv) (s : Session σ) :
    (Session.dispatch h (pure ()) revent env s).2.user = s.user := by
  have hfollows : Follows (fun s t : Session σ => t.user = s.user) (Session.dispatch h (pure ()) revent env) :=
    dispatch_follows h (fun _ _ _ => rfl) (fun _ _ => .single rfl) (fun _ _ _ => .single rfl) (.pure ()) revent env
  exact path_keeps (I := fun t : Session σ => t.user = s.user) (fun _ _ ht hi => ht.trans hi) (hfollows s) rfl

theorem Grows.path {α : Type} {m : SessionAct σ α} (hm : Follows Grows m) (s : Session σ) :
    s.conn.wire <+: (m s).2.conn.wire :=
  path_keeps (I := fun t : Session σ => s.conn.wire <+: t.conn.wire) (fun _ _ h hi => hi.trans h) (hm s) List.prefix_rfl

end Growth

inductive Stage where
  /-- the client is connected and has not called `then` yet -/
  | fresh
  | polling
  | stopped
  deriving DecidableEq, Repr

/-- `client.cpp` and `server.cpp`, at the two ends of one connection. -/
structure Ring where
  client : Session (List UInt8)
  stage : Stage
  last : Int
  server : Session (List UInt8)

namespace Ring

def hello : List UInt8 := [97,114,101,32,121,111,117,32,111,107,63,10]

def clientHandler : Handler := ⟨false,false,false⟩

def interval : Int := 500000000

inductive Label where
  | client (revent : EventBitmap) (env : EventEnv)
  | clientPass
  /-- the functor of `then` -/
  | greet (ans : WriteAnswer) (ctl : CtlAnswer)
  /-- the functor of `poll`, at the time `now` -/
  | poll (now : Int) (ans : WriteAnswer) (ctl : CtlAnswer)
  | server (l : Echo.Label)
  deriving DecidableEq, Repr

def start (last : Int) (throws : Option Exn) : Ring :=
  ⟨⟨clientHandler.begun none,[],[]⟩,.fresh,last,accepted throws⟩

/-- What a functor throws nobody catches. -/
def step (r : Ring) : Label → Option Ring
  | .client revent env =>
      some { r with client := (Session.dispatch clientHandler (pure ()) revent env r.client).2 }
  | .clientPass => some { r with client := (onConn Context.loopPass r.client).2 }
  | .greet ans ctl =>
      if r.stage = .fresh then
        match onConn (Context.send hello ans ctl) r.client with
        | (.ok _,client) => some { r with client, stage := .polling }
        | (.error _,_) => none
      else none
  | .poll now ans ctl =>
      if r.stage = .polling then
        if r.client.conn.nState ≠ .connected then some { r with stage := .stopped }
        else if now-r.last < interval then some r
        else match back ans ctl r.client with
          | (.ok _,client) => some { r with client, last := now }
          | (.error _,_) => none
      else none
  | .server l => (Echo.step r.server l).map (fun server => { r with server })

/-- The connection gives each end what the other's kernel took, from the front on. No
send that finds bytes queued gives the kernel its own, and epoll takes what the server
tells it when it sends. -/
def Allowed (r : Ring) : Label → Prop
  | .client _ env => r.client.received ++ env.read.got r.client.conn.input <+: r.server.conn.wire
  | .clientPass | .greet _ _ => True
  | .poll _ ans _ => r.client.conn.output.unread = 0 ∨ ans.taken r.client.conn.input.content = []
  | .server (.event _ env ans ctl) =>
      let bytes := r.server.conn.input.content ++ env.read.got r.server.conn.input
      r.server.received ++ env.read.got r.server.conn.input <+: r.client.conn.wire ∧
        (r.server.conn.output.unread = 0 ∨ ans.taken bytes = []) ∧ r.server.conn.Armable bytes ans ctl
  | .server .loopPass => True

instance (r : Ring) : (l : Label) → Decidable (r.Allowed l)
  | .client _ _ => inferInstanceAs (Decidable (_ <+: _))
  | .clientPass | .greet _ _ => .isTrue trivial
  | .poll _ _ _ => inferInstanceAs (Decidable (_ ∨ _))
  | .server (.event _ _ _ _) => inferInstanceAs (Decidable (_ ∧ (_ ∨ _) ∧ Conn.Armable _ _ _ _))
  | .server .loopPass => .isTrue trivial

def greeting (r : Ring) : List UInt8 := if r.stage = .fresh then [] else hello

/-- What the two ends have is one stream, cut at the places where its bytes wait. -/
structure Inv (r : Ring) : Prop where
  client : Echoes r.greeting (· <+: r.server.conn.wire) r.client
  fresh : r.stage = .fresh → r.client.user = []
  server : Echoes [] (· <+: r.client.conn.wire) r.server

theorem greeting_length (r : Ring) : r.greeting.length ≤ 12 := by
  unfold greeting
  split <;> decide

section Bounds
variable {r : Ring}

structure Bounds (r : Ring) : Prop where
  clientRead : ∀ got, r.client.received ++ got <+: r.server.conn.wire →
    r.client.conn.input.unread+got.length ≤ 2^30
  clientSend : ∀ rest : List UInt8, rest.length ≤ r.client.conn.input.content.length →
    r.client.conn.output.unread+rest.length ≤ 2^30
  serverRead : ∀ got, r.server.received ++ got <+: r.client.conn.wire →
    r.server.conn.input.unread+got.length ≤ 2^30 ∧
      ∀ rest : List UInt8, rest.length ≤ (r.server.conn.input.content ++ got).length →
        r.server.conn.output.unread+rest.length ≤ 2^30

theorem Inv.bounds (hr : r.Inv) : r.Bounds := by
  have h0 := r.greeting_length
  obtain ⟨h1,h2,h3,h4⟩ := hr.client.lengths
  obtain ⟨h5,h6,h7,h8⟩ := hr.server.lengths
  have h9 := hr.client.source.length_le
  have h10 := hr.server.source.length_le
  rw [List.length_nil] at h5
  refine ⟨fun got hgot => ?_,fun rest hrest => ?_,fun got hgot => ⟨?_,fun rest hrest => ?_⟩⟩
  · have hlen := hgot.length_le
    rw [List.length_append] at hlen
    omega
  · omega
  · have hlen := hgot.length_le
    rw [List.length_append] at hlen
    omega
  · have hlen := hgot.length_le
    rw [List.length_append] at hlen hrest
    omega

end Bounds

section Steps
variable {r t : Ring}

theorem start_inv (last : Int) (throws : Option Exn) : (start last throws).Inv := by
  have hclient : Echoes [] (· <+: (accepted throws).conn.wire) ⟨clientHandler.begun none,[],[]⟩ :=
    begun_echoes clientHandler none List.nil_prefix
  exact ⟨hclient,fun _ => rfl,accepted_echoes throws List.nil_prefix⟩

theorem Inv.client_event (hr : r.Inv) {revent : EventBitmap} {env : EventEnv}
    (hl : r.client.received ++ env.read.got r.client.conn.input <+: r.server.conn.wire) :
    Inv { r with client := (Session.dispatch clientHandler (pure ()) revent env r.client).2 } := by
  have hreads : Reads clientHandler r.client env.read (.accepts 0) none :=
    ⟨hr.bounds.clientRead _ hl,fun hf => Bool.noConfusion hf⟩
  have hecho := hr.client.dispatch revent env hl hreads
  rw [dispatch_silent rfl (Echo.back (.accepts 0) none) (pure ())] at hecho
  have hgrows := Grows.path (dispatch_grows clientHandler (Follows.pure ()) revent env) r.client
  refine ⟨hecho,fun hf => ?_,hr.server.mono (fun _ hx => hx.trans hgrows)⟩
  exact (dispatch_user clientHandler revent env r.client).trans (hr.fresh hf)

theorem Inv.greet (hr : r.Inv) (hf : r.stage = .fresh) {ans : WriteAnswer} {ctl : CtlAnswer}
    {client : Session (List UInt8)} {c : Completion}
    (hs : onConn (Context.send hello ans ctl) r.client = (.ok c,client)) :
    Inv { r with client, stage := .polling } := by
  have hnone : r.greeting ++ r.client.user = [] := by rw [greeting,if_pos hf,hr.fresh hf]; rfl
  have hsome : hello ++ r.client.user = hello := by rw [hr.fresh hf,List.append_nil]
  obtain ⟨hsource,hinput,houtput,hshown,hsent,hlinked⟩ := hr.client
  rw [hnone] at hsent hlinked
  have hconn : Context.send hello ans ctl r.client.conn = (.ok c,client.conn) ∧
      client = { r.client with conn := client.conn } := by
    rw [onConn,Act.zoom_apply,Prod.mk.injEq] at hs
    obtain ⟨hc,rfl⟩ := hs
    exact ⟨Prod.ext hc rfl,rfl⟩
  obtain ⟨hsend,hclient⟩ := hconn
  obtain ⟨more,hmore⟩ := send_wire hello ans ctl r.client.conn
  have hkept := send_input hello ans ctl r.client.conn
  rw [hsend] at hmore hkept
  refine ⟨?_,fun h => Stage.noConfusion h,hr.server.mono (fun x hx => hx.trans ⟨more,hmore.symm⟩)⟩
  rw [hclient]
  by_cases hl : r.client.conn.Left
  · rw [send_left _ _ _ _ hl,Prod.mk.injEq] at hsend
    rw [← hsend.2]
    exact ⟨hsource,hinput,houtput,hshown,hsent.trans List.nil_prefix,fun ho => absurd hl ho⟩
  have hempty : r.client.conn.output.unread = 0 := by
    have hlen := houtput.content_length
    have hnil := hsent.length_le
    rw [List.length_append,List.length_nil] at hnil
    omega
  have hturn : (Stream.mk r.client.conn []).InTurn (.send hello ans ctl) := by
    refine ⟨.inl hempty,?_,fun hrest hw => ⟨send_armable hl hsend hrest hw,(hlinked hl).interest⟩⟩
    have hle : hello.length = 12 := rfl
    have hrest := ans.rest_length hello
    dsimp only
    omega
  have hnew := send_linked (hlinked hl) hturn
  rw [hsend] at hnew
  dsimp only at hnew hkept
  rw [send_accepts hl (hlinked hl).inv.token hsend,List.nil_append,← hsome] at hnew
  exact ⟨hsource,by rw [hkept]; exact hinput,hnew.inv.wf,by rw [hkept]; exact hshown,
    hnew.inv.ordered ▸ List.prefix_rfl,fun _ => hnew⟩

theorem Inv.poll (hr : r.Inv) {now : Int} {ans : WriteAnswer} {ctl : CtlAnswer} {client : Session (List UInt8)}
    {u : Unit} (hfirst : r.client.conn.output.unread = 0 ∨ ans.taken r.client.conn.input.content = [])
    (hb : back ans ctl r.client = (.ok u,client)) (hf : r.stage ≠ .fresh) :
    Inv { r with client, last := now } := by
  have hecho : Echoes r.greeting (· <+: r.server.conn.wire) (back ans ctl r.client).2 := by
    rcases back_cases ans ctl r.client with ⟨_,he⟩ | ⟨e,t,_,he⟩ | ⟨c,t,hr',_⟩
    · rw [he]
      exact hr.client
    · rw [he] at hb
      cases hb
    · refine hr.client.back (fun hl => ⟨hfirst,hr.bounds.clientSend _ ?_,send_armable hl hr'⟩)
      rw [ans.rest_length]
      omega
  have hgrows := Grows.path (back_grows ans ctl) r.client
  rw [hb] at hecho hgrows
  exact ⟨hecho,fun h => absurd h hf,hr.server.mono (fun _ hx => hx.trans hgrows)⟩

theorem Inv.server_event (hr : r.Inv) {revent : EventBitmap} {env : EventEnv} {ans : WriteAnswer} {ctl : CtlAnswer}
    (hl : r.server.received ++ env.read.got r.server.conn.input <+: r.client.conn.wire)
    (hfirst : r.server.conn.output.unread = 0 ∨
      ans.taken (r.server.conn.input.content ++ env.read.got r.server.conn.input) = [])
    (harm : r.server.conn.Armable (r.server.conn.input.content ++ env.read.got r.server.conn.input) ans ctl) :
    Inv { r with server := (Session.dispatch Echo.server (back ans ctl) revent env r.server).2 } := by
  obtain ⟨hroom,hrest⟩ := hr.bounds.serverRead _ hl
  have hreads : Reads Echo.server r.server env.read ans ctl := by
    refine ⟨hroom,fun _ _ _ => ⟨hfirst,hrest _ ?_,harm⟩⟩
    rw [ans.rest_length]
    omega
  have hgrows := Grows.path (dispatch_grows Echo.server (back_grows ans ctl) revent env) r.server
  exact ⟨hr.client.mono (fun _ hx => hx.trans hgrows),hr.fresh,hr.server.dispatch revent env hl hreads⟩

theorem Inv.step {l : Label} (hr : r.Inv) (hl : r.Allowed l) (ht : r.step l = some t) : t.Inv := by
  cases l with
  | client revent env =>
    cases ht
    exact hr.client_event hl
  | clientPass =>
    cases ht
    have hwire := (loopPass_bytes r.client.conn).wire
    refine ⟨hr.client.loopPass,hr.fresh,hr.server.mono (fun x hx => ?_)⟩
    dsimp only [onConn,Act.zoom_apply]
    rw [hwire]
    exact hx
  | greet ans ctl =>
    simp only [Ring.step] at ht
    split at ht
    · rename_i hf
      split at ht
      · rename_i c client hs
        cases ht
        exact hr.greet hf hs
      · cases ht
    · cases ht
  | poll now ans ctl =>
    simp only [Ring.step] at ht
    split at ht
    · rename_i hp
      have hf : r.stage ≠ .fresh := by simp [hp]
      have hg : r.greeting = hello := if_neg hf
      split at ht
      · cases ht
        have hclient := hr.client
        rw [hg] at hclient
        exact ⟨hclient,fun h => Stage.noConfusion h,hr.server⟩
      · split at ht
        · cases ht
          exact hr
        · split at ht
          · rename_i u client hb
            cases ht
            exact hr.poll hl hb hf
          · cases ht
    · cases ht
  | server l =>
    cases l with
    | event revent env ans ctl =>
      obtain ⟨hsource,hfirst,harm⟩ := hl
      cases ht
      exact hr.server_event hsource hfirst harm
    | loopPass =>
      cases ht
      have hwire := (loopPass_bytes r.server.conn).wire
      refine ⟨hr.client.mono (fun x hx => ?_),hr.fresh,hr.server.loopPass⟩
      dsimp only [onConn,Act.zoom_apply]
      rw [hwire]
      exact hx

end Steps

section Rounds
variable {r : Ring}

def around (r : Ring) : Nat :=
  r.client.conn.output.content.length+(r.client.conn.wire.length-r.server.received.length)+
    r.server.conn.input.content.length+r.server.conn.output.content.length+
    (r.server.conn.wire.length-r.client.received.length)+r.client.conn.input.content.length

/-- However the two take turns: what an end reads is what the other sent, what it sends
is what it read, and what the client sends is its greeting over and over. As long as both
are open, all of the greeting is on its way. -/
theorem echo_rings {last : Int} {throws : Option Exn} (h : Path Ring.step Allowed (start last throws) r) :
    r.client.received <+: r.server.conn.wire ∧ r.server.conn.wire <+: r.server.received ∧
      r.server.received <+: r.client.conn.wire ∧ (∃ n, r.client.conn.wire <+: repeated hello n) ∧
      (r.stage ≠ .fresh → ¬r.client.conn.Left → ¬r.server.conn.Left → r.around = hello.length) := by
  have hr : r.Inv := h.keeps (fun _ _ _ hl ht hi => hi.step hl ht) (start_inv last throws)
  have hback : r.server.conn.wire <+: r.server.received := hr.server.wire.trans ⟨_,hr.server.shown⟩
  refine ⟨hr.client.source,hback,hr.server.source,?_,fun hf hc hs => ?_⟩
  · have hsent : r.client.conn.wire <+: hello ++ r.client.user := by
      by_cases hf : r.stage = .fresh
      · have hnone := hr.client.wire
        rw [greeting,if_pos hf,hr.fresh hf] at hnone
        exact hnone.trans List.nil_prefix
      · have hgreet := hr.client.wire
        rwa [greeting,if_neg hf] at hgreet
    have hshown : r.client.user <+: r.client.received := ⟨_,hr.client.shown⟩
    exact fed_back hsent (hshown.trans (hr.client.source.trans (hback.trans hr.server.source))) (by decide)
  · have hclient := congrArg List.length (hr.client.linked hc).inv.ordered
    have hserver := congrArg List.length (hr.server.linked hs).inv.ordered
    simp only [List.length_append,List.length_nil,greeting,if_neg hf] at hclient hserver
    obtain ⟨_,h1,_,_⟩ := hr.client.lengths
    obtain ⟨_,h2,_,_⟩ := hr.server.lengths
    have h3 := hr.client.source.length_le
    have h4 := hr.server.source.length_le
    unfold around
    omega

def secondRound : List Label :=
  let reads bytes : EventEnv := ⟨⟨none,.silent⟩,.data bytes,.silent,⟨none,.silent⟩,.accepts 0,none⟩
  let writes : EventEnv := ⟨⟨none,.silent⟩,.fails EAGAIN,.silent,⟨none,.silent⟩,.accepts 12,none⟩
  [.greet (.accepts 4) none,.server (.event POLLIN (reads (hello.take 4)) (.accepts 4) none),
    .client POLLOUT writes,.client POLLIN (reads (hello.take 4)),.poll interval (.accepts 4) none]

theorem echo_rings_twice : ∃ r : Ring, r.client.conn.wire = hello ++ hello.take 4 ∧ r.around = hello.length ∧
    r.server.received <+: r.client.conn.wire := by
  have hrun : (run Ring.step Allowed (start 0 none) secondRound).any (fun r =>
      r.client.conn.wire = hello ++ hello.take 4 ∧ r.stage ≠ .fresh ∧ ¬r.client.conn.Left ∧ ¬r.server.conn.Left) := by
    decide +kernel
  obtain ⟨r,hr,hcond⟩ := (Option.any_eq_true _ _).mp hrun
  obtain ⟨hwire,hstage,hclient,hserver⟩ := of_decide_eq_true hcond
  obtain ⟨_,_,hsource,_,haround⟩ := echo_rings (run_path hr)
  exact ⟨r,hwire,haround hstage hclient hserver,hsource⟩

end Rounds

end Ring

end Echo

end FluentNet
