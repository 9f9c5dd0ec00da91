import FluentNet.Handler.Session
import FluentNet.Http.Parser
import FluentNet.Library.Runs
set_option autoImplicit false

/-!
The server of the HTTP example: what becomes of the bytes that a connection sends it, and
which requests its callback gets to see.
-/

namespace FluentNet
namespace Http
open Throwing Runs Scan

def connection : Text := [67,111,110,110,101,99,116,105,111,110]

def close : Text := [99,108,111,115,101]

def keepAlive : Text := [75,101,101,112,45,65,108,105,118,101]

def badRequest : Text :=
  [72,84,84,80,47,49,46,49,32,52,48,48,32,66,97,100,32,82,101,113,117,101,115,116,13,10,13,10]

structure Call where
  request : Request
  closeFlag : Bool
  deriving DecidableEq, Repr

/-- What the server keeps beside a connection, and on record: the calls, and each time
what was read of the input and what was behind it. -/
structure Exchange where
  any : Message
  calls : List Call
  passed : List (Text × Text)
  deriving DecidableEq, Repr

abbrev RequestCallback := Response → Except Exn Response

def Response.init (closeFlag : Bool) : Response := ⟨none,[],[],[],closeFlag⟩

namespace Server

def handler : Handler := ⟨true,true,false⟩

section OnMessage
variable (callback : Option RequestCallback) (ans : WriteAnswer) (ctl : CtlAnswer)

def respond (call : Call) : SessionAct Exchange Response :=
  match callback with
  | none => pure (.init call.closeFlag)
  | some callback => do
      Act.modify (fun s => { s with user := { s.user with calls := s.user.calls ++ [call] } })
      match callback (.init call.closeFlag) with
      | .ok response => pure response
      | .error e => Act.throw e

def answer (request : Request) : SessionAct Exchange Unit := do
  let (connectionHeader,headers) := request.headers.access connection
  let closeFlag : Bool := connectionHeader = close ∨ (request.version = .v10 ∧ connectionHeader ≠ keepAlive)
  let response ← respond callback ⟨{ request with headers },closeFlag⟩
  match response.stream with
  | none => Act.throw .undefined
  | some text => do
      let _ ← Session.onConn (Context.send text ans ctl)
      Act.onlyIf response.closeFlag (Session.onConn Context.shutdown)

def hasRead (parsed : ℕ) : SessionAct Exchange Unit :=
  Act.modify (fun s => { s with
    conn := { s.conn with input := s.conn.input.hasRead parsed }
    user := { s.user with
      passed := s.user.passed ++
        if parsed = 0 then [] else [(s.conn.input.content.take parsed,s.conn.input.content.drop parsed)] } })

/-- `auto message = cast(..)` is a copy: what `parse` and the reset do to it is lost. -/
def onMessage : SessionAct Exchange Unit := do
  let s ← Act.get
  -- a message that was just made is parsed in four turns
  match Parser.parse s.conn.input.content 4 s.user.any with
  | (.error e,_) => Act.throw e
  | (.ok none,_) => Act.throw .undefined
  | (.ok (some parsed),message) =>
      if parsed < 0 then do
        let _ ← Session.onConn (Context.send badRequest ans ctl)
        Session.onConn Context.shutdown
      else do
        hasRead parsed.toNat
        Act.onlyIf (message.state = .ready) (answer callback ans ctl message.request)

end OnMessage

/-- A connection that the server has taken on; its `onConnect` makes `any`. -/
def accepted : Session Exchange :=
  ⟨(handler.handleNewContext none .silent Conn.init).2,[],⟨.init,[],[]⟩⟩

inductive Label where
  | event (revent : EventBitmap) (env : EventEnv) (callback : Option RequestCallback) (ans : WriteAnswer)
      (ctl : CtlAnswer)
  | loopPass

def step (s : Session Exchange) : Label → Option (Session Exchange)
  | .event revent env callback ans ctl =>
      some (Session.dispatch handler (onMessage callback ans ctl) revent env s).2
  | .loopPass => some (Session.onConn Context.loopPass s).2

/-- There is a callback, and if it returns it has set the code. -/
def Sets : Option RequestCallback → Prop
  | none => False
  | some callback => ∀ closeFlag, ((callback (.init closeFlag)).toOption.all fun r => r.code.isSome) = true

instance : (callback : Option RequestCallback) → Decidable (Sets callback)
  | none => .isFalse id
  | some _ => inferInstanceAs (Decidable (∀ _, _ = true))

/-- What is read has room, and no zero in it. -/
def Reads (read : ReadAnswer) (s : Session Exchange) : Prop :=
  s.conn.input.unread+(read.got s.conn.input).length ≤ 2^30 ∧ 0 ∉ read.got s.conn.input

instance (read : ReadAnswer) (s : Session Exchange) : Decidable (Reads read s) :=
  inferInstanceAs (Decidable (_ ∧ _))

def Allowed (s : Session Exchange) : Label → Prop
  | .event _ env callback _ _ => Reads env.read s ∧ Sets callback
  | .loopPass => True

instance (s : Session Exchange) : (l : Label) → Decidable (Allowed s l)
  | .event _ env callback _ _ => inferInstanceAs (Decidable (Reads env.read s ∧ Sets callback))
  | .loopPass => .isTrue trivial

end Server

/-- The call for a line: no header ever gets to it but the one that `headers[..]` makes. -/
def Line.call (l : Line) : Call := ⟨{ l.request with headers := [(connection,[])] },l.version = .v10⟩

abbrev Turn := Line × Text

def Turn.call (turn : Turn) : Option Call := if turn.2 = [] then none else some turn.1.call

/-- What is read of the input are lines, and they are what is called back for. -/
structure Served (s : Session Exchange) : Prop where
  any : s.user.any = .init
  input : s.conn.input.Wf
  clean : 0 ∉ s.conn.input.content
  turns : ∃ turns : List Turn, s.user.passed = turns.map (fun turn => (turn.1.bytes,turn.2)) ∧
    s.received = turns.flatMap (fun turn => turn.1.bytes) ++ s.conn.input.content ∧
    s.user.calls = turns.filterMap Turn.call

theorem parse_turn {data : Text} (hzero : 0 ∉ data) :
    (∃ (l : Line) (next : Text), data = l.bytes ++ next ∧ Parser.parse data 4 .init =
      (.ok (some l.bytes.length),⟨if next = [] then .nextHeader else .ready,l.request⟩)) ∨
    Parser.parse data 4 .init = (.ok (some 0),.init) ∨
    (∃ m, Parser.parse data 4 .init = (.ok (some (-400)),m)) ∨
    ∃ m, Parser.parse data 4 .init = (.error Parser.unsupported,m) := by
  have htotal := Parses.total hzero 0
  rcases hres : Parser.parse data 4 .init with ⟨r,m⟩
  rw [hres] at htotal
  cases htotal with
  | waits h =>
    rw [Parser.parse_waits h 0] at hres
    exact .inr (.inl hres.symm)
  | reads next hne hcr hreads =>
    cases hreads with
    | line l h =>
      subst h
      have hclean : 0 ∉ l.before := fun hmem => hzero (List.mem_append_left _ hmem)
      rw [← l.bytes_append,parse_line l hclean next 0] at hres
      exact .inl ⟨l,next,(l.bytes_append next).symm,hres.symm⟩
    | query => exact .inr (.inr (.inr ⟨m,rfl⟩))
    | bad => exact .inr (.inr (.inl ⟨m,rfl⟩))

section Steps
variable {s : Session Exchange}

theorem Served.frame (hs : Served s) {conn : Conn} (h : conn.input = s.conn.input) :
    Served { s with conn } :=
  ⟨hs.any,by rw [h]; exact hs.input,by rw [h]; exact hs.clean,by rw [h]; exact hs.turns⟩

theorem Served.send (hs : Served s) (text : Text) (ans : WriteAnswer) (ctl : CtlAnswer) :
    Served (Session.onConn (Context.send text ans ctl) s).2 :=
  hs.frame (send_input text ans ctl s.conn)

theorem Served.shutdown (hs : Served s) : Served (Session.onConn Context.shutdown s).2 :=
  hs.frame (shutdown_bytes s.conn).input

theorem Served.hasRead_none (hs : Served s) : Served (Server.hasRead 0 s).2 := by
  have hle : ((0 : ℕ) : Int) ≤ s.conn.input.unread := by
    have hlen := hs.input.content_length
    omega
  have hcontent : (s.conn.input.hasRead (0 : ℕ)).content = s.conn.input.content := by
    rw [hs.input.hasRead_content hle,List.drop_zero]
  obtain ⟨turns,hpassed,hreceived,hcalls⟩ := hs.turns
  refine ⟨hs.any,hs.input.hasRead hle,?_,turns,?_,?_,hcalls⟩
  · dsimp only [Server.hasRead,Act.modify_apply]
    rw [hcontent]
    exact hs.clean
  · simp [Server.hasRead,hpassed]
  · dsimp only [Server.hasRead,Act.modify_apply]
    rw [hcontent]
    exact hreceived

structure Passed (s t : Session Exchange) (turn : Turn) : Prop where
  any : t.user.any = .init
  input : t.conn.input.Wf
  clean : 0 ∉ t.conn.input.content
  passed : t.user.passed = s.user.passed ++ [(turn.1.bytes,turn.2)]
  received : t.received = s.received
  content : t.conn.input.content = turn.2
  calls : t.user.calls = s.user.calls

theorem Served.hasRead_line (hs : Served s) {l : Line} {next : Text} (h : s.conn.input.content = l.bytes ++ next) :
    Passed s (Server.hasRead l.bytes.length s).2 (l,next) := by
  have hle : (l.bytes.length : Int) ≤ s.conn.input.unread := by
    have hlen := hs.input.content_length
    rw [h,List.length_append] at hlen
    omega
  have hcontent : (s.conn.input.hasRead l.bytes.length).content = next := by
    rw [hs.input.hasRead_content hle,h,List.drop_left]
  have hne : l.bytes.length ≠ 0 := by simp [l.bytes_length]
  refine ⟨hs.any,hs.input.hasRead hle,?_,?_,rfl,hcontent,rfl⟩
  · dsimp only [Server.hasRead,Act.modify_apply]
    rw [hcontent]
    exact fun hmem => hs.clean (h ▸ List.mem_append_right _ hmem)
  · simp [Server.hasRead,hne,h]

theorem Passed.served {t : Session Exchange} {turn : Turn} (hs : Served s) (ht : Passed s t turn)
    (hc : s.conn.input.content = turn.1.bytes ++ turn.2) {calls : List Call}
    (hcalls : calls = s.user.calls ++ turn.call.toList) :
    Served { t with user := { t.user with calls } } := by
  obtain ⟨turns,hpassed,hreceived,hcalled⟩ := hs.turns
  refine ⟨ht.any,ht.input,ht.clean,turns ++ [turn],?_,?_,?_⟩
  · dsimp only
    rw [ht.passed,hpassed,List.map_append]
    rfl
  · dsimp only
    rw [ht.received,ht.content,hreceived,hc,List.flatMap_append,List.flatMap_singleton,List.append_assoc]
  · dsimp only
    rw [hcalls,hcalled,List.filterMap_append]
    cases hcall : turn.call <;> simp [hcall]

theorem answer_call (callback : Option RequestCallback) (ans : WriteAnswer) (ctl : CtlAnswer) (l : Line) :
    Server.answer callback ans ctl l.request = (do
      let response ← Server.respond callback l.call
      match response.stream with
      | none => Act.throw .undefined
      | some text => do
          let _ ← Session.onConn (Context.send text ans ctl)
          Act.onlyIf response.closeFlag (Session.onConn Context.shutdown)) := by
  have hcall : l.call = ⟨{ l.request with headers := [(connection,[])] },
      decide (([] : Text) = close ∨ (l.version = .v10 ∧ ([] : Text) ≠ keepAlive))⟩ := by
    have h1 : ([] : Text) ≠ close := by decide
    have h2 : ([] : Text) ≠ keepAlive := by decide
    simp [Line.call,h1,h2]
  rw [hcall]
  rfl

theorem Served.answer (hs : Served s) {t : Session Exchange} {l : Line} {next : Text} (ht : Passed s t (l,next))
    (hc : s.conn.input.content = l.bytes ++ next) (hne : next ≠ []) {callback : Option RequestCallback}
    (hset : Server.Sets callback) (ans : WriteAnswer) (ctl : CtlAnswer) :
    Served (Server.answer callback ans ctl l.request t).2 := by
  cases callback with
  | none => exact hset.elim
  | some f =>
    have hcall : Turn.call (l,next) = some l.call := if_neg hne
    have hcalled : Served { t with user := { t.user with calls := t.user.calls ++ [l.call] } } := by
      refine ht.served hs hc ?_
      rw [ht.calls,hcall]
      rfl
    rw [answer_call]
    refine bind_keeps (I := Served) ?_ (fun response u hu => ?_)
    · rw [Server.respond,Act.modify_bind]
      cases f (.init l.call.closeFlag) <;> exact hcalled
    · cases response.stream with
      | none => exact hu
      | some text =>
        refine bind_keeps (I := Served) (hu.send text ans ctl) (fun _ v hv => ?_)
        by_cases hflag : response.closeFlag = true
        · rw [Act.onlyIf_true hflag]
          exact hv.shutdown
        · rw [Act.onlyIf_false hflag]
          exact hv

theorem Served.onMessage (hs : Served s) {callback : Option RequestCallback} (hset : Server.Sets callback)
    (ans : WriteAnswer) (ctl : CtlAnswer) : Served (Server.onMessage callback ans ctl s).2 := by
  rw [Server.onMessage,Act.get_bind,hs.any]
  rcases parse_turn hs.clean with ⟨l,next,hc,he⟩ | he | ⟨m,he⟩ | ⟨m,he⟩ <;> simp only [he]
  · have hpos : ¬((l.bytes.length : Int) < 0) := by omega
    have hpassed := hs.hasRead_line hc
    rw [if_neg hpos,Int.toNat_natCast]
    -- a line that came alone leaves the copy waiting for headers, and the copy is lost
    by_cases hnext : next = []
    · subst hnext
      refine bind_keeps (I := Served) ?_ (fun _ t ht => ?_)
      · have hcalls : s.user.calls = s.user.calls ++ (Turn.call (l,[])).toList := by simp [Turn.call]
        exact hpassed.served hs hc hcalls
      · exact ht
    · have hready : (if next = [] then StreamState.nextHeader else StreamState.ready) = .ready := if_neg hnext
      simp only [Server.hasRead,Act.modify_bind,Act.onlyIf_true hready]
      exact hs.answer hpassed hc hnext hset ans ctl
  · exact bind_keeps (I := Served) hs.hasRead_none (fun _ t ht => ht)
  · exact bind_keeps (I := Served) (hs.send badRequest ans ctl) (fun _ t ht => ht.shutdown)
  · exact hs

theorem Served.handleRead (hs : Served s) {env : EventEnv} (hread : Server.Reads env.read s)
    {callback : Option RequestCallback} (hset : Server.Sets callback) (ans : WriteAnswer) (ctl : CtlAnswer) :
    Served (Session.handleRead Server.handler (Server.onMessage callback ans ctl) env s).2 := by
  obtain ⟨hroom,hzero⟩ := hread
  obtain ⟨i,n,hi,hwf,hcontent,_⟩ := Session.readInput_got hs.input env.read hroom
  obtain ⟨turns,hpassed,hreceived,hcalls⟩ := hs.turns
  let t : Session Exchange := { s with
    received := s.received ++ env.read.got s.conn.input
    conn := { s.conn with input := i, eof := s.conn.eof || n == 0 } }
  have ht : Served t := by
    refine ⟨hs.any,hwf,?_,turns,hpassed,?_,hcalls⟩
    · dsimp only [t]
      rw [hcontent,List.mem_append]
      exact not_or.mpr ⟨hs.clean,hzero⟩
    · dsimp only [t]
      rw [hcontent,hreceived,List.append_assoc]
  refine Session.handleRead_holds Server.handler hi ht (fun _ _ => ?_) ?_
  · have hrecord : Served (Session.onConn (record .message) t).2 := ht.frame rfl
    exact hrecord.onMessage hset ans ctl
  · exact ht.frame (handleClose_bytes Server.handler env.fin t.conn).input

theorem Served.dispatch (hs : Served s) (revent : EventBitmap) (env : EventEnv) (hread : Server.Reads env.read s)
    {callback : Option RequestCallback} (hset : Server.Sets callback) (ans : WriteAnswer) (ctl : CtlAnswer) :
    Served (Session.dispatch Server.handler (Server.onMessage callback ans ctl) revent env s).2 := by
  refine Session.dispatch_holds (I := Served) (A := Server.Reads env.read) Server.handler ?_ ?_ ?_ ?_ ?_
    revent hs hread
  · exact fun t eof ⟨ht,hr⟩ => ⟨ht.frame rfl,hr⟩
  · exact fun e t ht => ht.frame rfl
  · rintro t ⟨ht,hr⟩
    have hinput := (handleClose_bytes Server.handler env.hup t.conn).input
    refine ⟨ht.frame hinput,?_⟩
    rw [Session.onConn,Act.zoom_apply,Server.Reads]
    dsimp only
    rw [hinput]
    exact hr
  · exact fun t ht hr => ht.handleRead hr hset ans ctl
  · exact fun t ht => ht.frame (handleWrite_input env.write env.ctl t.conn)

theorem accepted_served : Served Server.accepted :=
  ⟨rfl,Buffer.ofSize_wf _,by decide,[],rfl,rfl,rfl⟩

theorem path_served (h : Path Server.step Server.Allowed Server.accepted s) : Served s := by
  refine h.keeps (I := Served) (fun s l t hl ht hs => ?_) accepted_served
  cases l with
  | event revent env callback ans ctl =>
    cases ht
    exact hs.dispatch revent env hl.1 hl.2 ans ctl
  | loopPass =>
    cases ht
    exact hs.frame (loopPass_bytes s.conn).input

end Steps

section Runs
variable {s : Session Exchange}

/-- On every connection, whatever it sends: what is read of it are lines, in order and one at
a time; the callback gets each one that something was behind when it was parsed, without
its headers, and nothing else. -/
theorem http_serves (h : Path Server.step Server.Allowed Server.accepted s) :
    ∃ turns : List Turn, s.user.passed = turns.map (fun turn => (turn.1.bytes,turn.2)) ∧
      s.received = turns.flatMap (fun turn => turn.1.bytes) ++ s.conn.input.content ∧
      s.user.calls = turns.filterMap Turn.call :=
  (path_served h).turns

def getLine : Text := [71,69,84,32,47,32,72,84,84,80,47,49,46,49,13,10]

def got : Call := ⟨⟨.get,.v11,[47],[(connection,[])]⟩,false⟩

def asks (bytes : Text) : Server.Label :=
  .event POLLIN ⟨⟨none,.silent⟩,.data bytes,.silent,⟨none,.silent⟩,.accepts 0,none⟩
    (some fun response => .ok { response with code := some 200 }) (.accepts 100) none

theorem http_serves_pipelined : ∃ (s : Session Exchange) (turns : List Turn), s.user.calls = [got,got] ∧
    s.received = turns.flatMap (fun turn => turn.1.bytes) ++ s.conn.input.content ∧
    s.user.calls = turns.filterMap Turn.call := by
  have hrun : (run Server.step Server.Allowed Server.accepted [asks (getLine ++ getLine),asks [13]]).any
      (fun s => s.user.calls = [got,got]) := by decide +kernel
  obtain ⟨s,hs,hcond⟩ := (Option.any_eq_true _ _).mp hrun
  obtain ⟨turns,_,hreceived,hcalls⟩ := http_serves (run_path hs)
  exact ⟨s,turns,of_decide_eq_true hcond,hreceived,hcalls⟩

/-- What follows is not a line: a header that is none, or the end of the headers. -/
def Ends (tail : Text) : Prop := ∀ (l : Line) (next : Text), tail ≠ l.bytes ++ next

theorem ends_blank (tail : Text) : Ends (CR :: LF :: tail) := by
  intro l next he
  rw [l.bytes_append,← List.nil_append (CR :: LF :: tail)] at he
  exact l.before_ne_nil (split_unique List.not_mem_nil l.before_clean he).1.symm

theorem Line.call_unique {l l' : Line} (h : l.before = l'.before) : l.call = l'.call := by
  have hrequest := Line.request_unique h
  have hversion : l.version = l'.version := congrArg Request.version hrequest
  rw [Line.call,Line.call,hrequest,hversion]

theorem Line.bytes_unique {l l' : Line} {next next' : Text} (h : l.bytes ++ next = l'.bytes ++ next') :
    l.before = l'.before ∧ next = next' := by
  rw [l.bytes_append,l'.bytes_append] at h
  obtain ⟨hbefore,hrest⟩ := split_unique l.before_clean l'.before_clean h
  exact ⟨hbefore,(List.cons.inj hrest).2⟩

/-- A request that has headers, or a blank line, is the last one that its connection is
served: at most one call, whatever else is sent. -/
theorem http_serves_once (h : Path Server.step Server.Allowed Server.accepted s) {l : Line} {tail : Text}
    (hsent : s.received <+: l.bytes ++ tail) (hends : Ends tail) :
    s.user.calls = [] ∨ s.user.calls = [l.call] := by
  obtain ⟨turns,_,hreceived,hcalls⟩ := (path_served h).turns
  obtain ⟨more,hmore⟩ := hsent
  rw [hreceived,List.append_assoc] at hmore
  rw [hcalls]
  cases turns with
  | nil => exact .inl rfl
  | cons turn rest =>
    obtain ⟨first,next⟩ := turn
    rw [List.flatMap_cons,List.append_assoc] at hmore
    obtain ⟨hbefore,htail⟩ := Line.bytes_unique hmore
    -- a second line would begin what is behind the first
    have hnone : rest = [] := by
      cases rest with
      | nil => rfl
      | cons second rest =>
        rw [List.flatMap_cons,List.append_assoc] at htail
        exact absurd htail.symm (hends second.1 _)
    subst hnone
    by_cases hnext : next = []
    · exact .inl (by simp [Turn.call,hnext])
    · exact .inr (by simp [Turn.call,hnext,Line.call_unique hbefore])

def Line.get : Line where
  token := [71,69,84]
  method := .get
  path := [47]
  version := .v11
  names := ⟨by decide,[71,69,84,0],by decide,by decide⟩
  token_clean := by decide
  path_clean := by decide
  known := by decide

/-- A second request behind the blank line is not served. -/
theorem http_serves_once_blank : ∃ s : Session Exchange, s.received = getLine ++ [CR,LF] ++ getLine ++ [CR,LF] ∧
    s.user.calls = [got] ∧ (s.user.calls = [] ∨ s.user.calls = [Line.get.call]) := by
  have hrun : (run Server.step Server.Allowed Server.accepted
      [asks (getLine ++ [CR,LF]),asks (getLine ++ [CR,LF])]).any (fun s =>
        s.received = getLine ++ [CR,LF] ++ getLine ++ [CR,LF] ∧ s.user.calls = [got]) := by decide +kernel
  obtain ⟨s,hs,hcond⟩ := (Option.any_eq_true _ _).mp hrun
  obtain ⟨hreceived,hcalls⟩ := of_decide_eq_true hcond
  have hsent : s.received <+: Line.get.bytes ++ (CR :: LF :: (getLine ++ [CR,LF])) := by
    rw [hreceived]
    exact List.prefix_rfl
  exact ⟨s,hreceived,hcalls,http_serves_once (run_path hs) hsent (ends_blank _)⟩

end Runs

end Http
end FluentNet
