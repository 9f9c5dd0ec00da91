import FluentNet.Http.Server
set_option autoImplicit false

/-!
What the server of the HTTP example sends: texts that a client can tell apart, and that
reach it one behind the other.
-/

namespace FluentNet
namespace Http
open Throwing Runs Scan

theorem decimal_clean (n : Nat) : SP ∉ decimal n ∧ CR ∉ decimal n := by
  refine ⟨fun h => ?_,fun h => ?_⟩
  · have hne : (SP == SP) = false := decimal_ne h (by decide)
    cases hne
  · have hne : (CR == CR) = false := decimal_ne h (by decide)
    cases hne

/-- What `onMessage` gives to `send`. -/
inductive Reply where
  | response (response : Response)
  | bad
  deriving DecidableEq, Repr

structure Response.Clean (r : Response) : Prop where
  code : r.code.isSome = true
  message : CR ∉ r.message
  headers : ∀ header ∈ r.headers, COLON ∉ header.1 ∧ CR ∉ header.1 ∧ CR ∉ header.2

instance (r : Response) : Decidable r.Clean :=
  decidable_of_iff (r.code.isSome = true ∧ CR ∉ r.message ∧
      ∀ header ∈ r.headers, COLON ∉ header.1 ∧ CR ∉ header.1 ∧ CR ∉ header.2)
    ⟨fun ⟨h1,h2,h3⟩ => ⟨h1,h2,h3⟩,fun ⟨h1,h2,h3⟩ => ⟨h1,h2,h3⟩⟩

def fieldLine (header : Text × Text) : Text := header.1 ++ COLON :: SP :: (header.2 ++ CR :: LF :: [])

namespace Reply

def text : Reply → Text
  | .response r => r.stream.getD []
  | .bad => badRequest

def closes : Reply → Bool
  | .response r => r.closeFlag
  | .bad => true

def Clean : Reply → Prop
  | .response r => r.Clean
  | .bad => True

instance : (q : Reply) → Decidable q.Clean
  | .response r => inferInstanceAs (Decidable r.Clean)
  | .bad => .isTrue trivial

def code : Reply → Nat
  | .response r => r.code.getD 0
  | .bad => 400

def message : Reply → Text
  | .response r => r.message
  | .bad => [66,97,100,32,82,101,113,117,101,115,116]

def fields : Reply → Text
  | .response r =>
      (if r.closeFlag then closeHeader.drop 2
       else contentLength.drop 2 ++ decimal r.body.length ++ keepAliveHeader) ++
      (r.headers.flatMap fieldLine ++ CR :: LF :: r.body)
  | .bad => [CR,LF]

theorem text_eq {q : Reply} (h : q.Clean) :
    q.text = statusPrefix ++ (decimal q.code ++ SP :: (q.message ++ CR :: LF :: q.fields)) := by
  cases q with
  | bad => decide
  | response r =>
    obtain ⟨code,hcode⟩ := Option.isSome_iff_exists.mp h.code
    have hlines : (fun header : Text × Text => header.1 ++ [COLON,SP] ++ header.2 ++ [CR,LF]) = fieldLine := by
      funext header
      simp [fieldLine]
    simp only [text,Response.stream,hcode,Option.map_some,Option.getD_some,Reply.code,message,fields,hlines]
    cases r.closeFlag
    · simp [contentLength,CR,LF]
    · simp [closeHeader,CR,LF]

theorem text_ne_nil {q : Reply} (h : q.Clean) : q.text ≠ [] := by
  rw [text_eq h]
  simp [statusPrefix]

theorem message_clean {q : Reply} (h : q.Clean) : CR ∉ q.message := by
  cases q with
  | bad => decide
  | response r => exact h.message

end Reply

theorem headers_unique {hs hs' : HeaderList} (h : ∀ header ∈ hs, COLON ∉ header.1 ∧ CR ∉ header.1 ∧ CR ∉ header.2)
    (h' : ∀ header ∈ hs', COLON ∉ header.1 ∧ CR ∉ header.1 ∧ CR ∉ header.2) {rest rest' : Text}
    (he : hs.flatMap fieldLine ++ CR :: rest = hs'.flatMap fieldLine ++ CR :: rest') :
    hs = hs' ∧ rest = rest' := by
  have hends : ∀ {key more rest : Text}, CR ∉ key → key ++ COLON :: more ≠ CR :: rest := by
    intro key more rest hkey heq
    cases key with
    | nil => cases heq
    | cons c key => exact hkey ((List.cons.inj heq).1 ▸ List.mem_cons_self)
  induction hs generalizing hs' with
  | nil =>
    cases hs' with
    | nil => exact ⟨rfl,(List.cons.inj he).2⟩
    | cons header' hs' =>
      simp only [List.flatMap_nil,List.flatMap_cons,fieldLine,List.append_assoc,List.cons_append,List.nil_append] at he
      exact absurd he.symm (hends (h' _ List.mem_cons_self).2.1)
  | cons header hs ih =>
    obtain ⟨hcolon,hkey,hcontent⟩ := h header List.mem_cons_self
    cases hs' with
    | nil =>
      simp only [List.flatMap_nil,List.flatMap_cons,fieldLine,List.append_assoc,List.cons_append,List.nil_append] at he
      exact absurd he (hends hkey)
    | cons header' hs' =>
      obtain ⟨hcolon',_,hcontent'⟩ := h' header' List.mem_cons_self
      rw [List.flatMap_cons,List.flatMap_cons,fieldLine,fieldLine] at he
      simp only [List.append_assoc,List.cons_append,List.nil_append] at he
      obtain ⟨hkeys,hmore⟩ := split_unique hcolon hcolon' he
      obtain ⟨hcontents,hnext⟩ := split_unique hcontent hcontent' (List.cons.inj hmore).2
      obtain ⟨rfl,hrest⟩ := ih (fun _ hm => h _ (List.mem_cons_of_mem _ hm))
        (fun _ hm => h' _ (List.mem_cons_of_mem _ hm)) (List.cons.inj hnext).2
      exact ⟨congrArg (· :: hs) (Prod.ext hkeys hcontents),hrest⟩

theorem closeHeader_ne (more more' : Text) : closeHeader.drop 2 ++ more ≠ contentLength.drop 2 ++ more' := by
  simp [closeHeader,contentLength]

/-- The two kinds of fields differ early, and each says where its body begins. -/
theorem body_unique {r r' : Response} (h : r.Clean) (h' : r'.Clean) {rest rest' : Text}
    (he : (Reply.response r).fields ++ rest = (Reply.response r').fields ++ rest') :
    r.closeFlag = r'.closeFlag ∧ (r.closeFlag = false → r.body.length = r'.body.length) ∧
      r.headers = r'.headers ∧ r.body ++ rest = r'.body ++ rest' := by
  have hbodies : ∀ {more more' : Text}, r.headers.flatMap fieldLine ++ CR :: LF :: more =
      r'.headers.flatMap fieldLine ++ CR :: LF :: more' → r.headers = r'.headers ∧ more = more' := by
    intro more more' heq
    obtain ⟨hheaders,hmore⟩ := headers_unique h.headers h'.headers heq
    exact ⟨hheaders,(List.cons.inj hmore).2⟩
  simp only [Reply.fields] at he
  cases hflag : r.closeFlag <;> cases hflag' : r'.closeFlag <;>
    simp only [hflag,hflag',if_true,if_false,Bool.false_eq_true,List.append_assoc,List.cons_append] at he
  · have hlength := List.append_cancel_left he
    have hsplit := split_unique (decimal_clean _).2 (decimal_clean _).2 hlength
    have hmore : keepAliveHeader.tail ++ _ = keepAliveHeader.tail ++ _ := hsplit.2
    obtain ⟨hheaders,hbody⟩ := hbodies (List.append_cancel_left hmore)
    exact ⟨rfl,fun _ => decimal_injective hsplit.1,hheaders,hbody⟩
  · exact absurd he.symm (closeHeader_ne _ _)
  · exact absurd he (closeHeader_ne _ _)
  · obtain ⟨hheaders,hbody⟩ := hbodies (List.append_cancel_left he)
    exact ⟨rfl,nofun,hheaders,hbody⟩

theorem bad_ne {r : Response} (rest rest' : Text) :
    Reply.bad.fields ++ rest ≠ (Reply.response r).fields ++ rest' := by
  simp only [Reply.fields]
  cases r.closeFlag <;> simp [closeHeader,contentLength,CR]

theorem Reply.unique {q q' : Reply} (h : q.Clean) (h' : q'.Clean) {rest rest' : Text}
    (hlast : q.closes = true → rest = []) (hlast' : q'.closes = true → rest' = [])
    (he : q.text ++ rest = q'.text ++ rest') : q = q' ∧ rest = rest' := by
  rw [text_eq h,text_eq h'] at he
  simp only [List.append_assoc,List.cons_append] at he
  obtain ⟨hcode,hmore⟩ := split_unique (decimal_clean _).1 (decimal_clean _).1 (List.append_cancel_left he)
  obtain ⟨hmessage,hmore⟩ := split_unique (message_clean h) (message_clean h') hmore
  have hfields := (List.cons.inj hmore).2
  cases q with
  | bad =>
    cases q' with
    | bad => exact ⟨rfl,(hlast rfl).trans (hlast' rfl).symm⟩
    | response r => exact absurd hfields (bad_ne rest rest')
  | response r =>
    cases q' with
    | bad => exact absurd hfields.symm (bad_ne rest' rest)
    | response r' =>
      obtain ⟨hflag,hlength,hheaders,hbody⟩ := body_unique h h' hfields
      obtain ⟨code,hc⟩ := Option.isSome_iff_exists.mp h.code
      obtain ⟨code',hc'⟩ := Option.isSome_iff_exists.mp h'.code
      have hcodes : r.code = r'.code := by
        have hnumbers := decimal_injective hcode
        simp only [Reply.code,hc,hc',Option.getD_some] at hnumbers
        rw [hc,hc',hnumbers]
      -- the end of the stream, or the length, says where the body ends
      have hbodies : r.body = r'.body ∧ rest = rest' := by
        cases hclose : r.closeFlag with
        | true =>
          obtain rfl := hlast hclose
          obtain rfl := hlast' (hflag.symm.trans hclose)
          exact ⟨by simpa using hbody,rfl⟩
        | false => exact List.append_inj hbody (hlength hclose)
      obtain ⟨_,_,_,_,_⟩ := r
      obtain ⟨_,_,_,_,_⟩ := r'
      obtain rfl : _ = _ := hcodes
      obtain rfl : _ = _ := hmessage
      obtain rfl : _ = _ := hheaders
      obtain rfl : _ = _ := hbodies.1
      obtain rfl : _ = _ := hflag
      exact ⟨rfl,hbodies.2⟩

/-- Replies of which only the last may close. -/
def Replies : List Reply → Prop
  | [] => True
  | q :: qs => q.Clean ∧ (q.closes = true → qs = []) ∧ Replies qs

theorem Replies.flat_nil {qs : List Reply} (h : Replies qs) (he : qs.flatMap Reply.text = []) : qs = [] := by
  cases qs with
  | nil => rfl
  | cons q qs => exact absurd (List.append_eq_nil_iff.mp he).1 (Reply.text_ne_nil h.1)

/-- What is sent on a connection is read in one way only. -/
theorem replies_framed {qs qs' : List Reply} (h : Replies qs) (h' : Replies qs')
    (he : qs.flatMap Reply.text = qs'.flatMap Reply.text) : qs = qs' := by
  induction qs generalizing qs' with
  | nil => exact (h'.flat_nil he.symm).symm
  | cons q qs ih =>
    cases qs' with
    | nil => exact h.flat_nil he
    | cons q' qs' =>
      obtain ⟨hq,hlast,hqs⟩ := h
      obtain ⟨hq',hlast',hqs'⟩ := h'
      rw [List.flatMap_cons,List.flatMap_cons] at he
      obtain ⟨rfl,hrest⟩ := Reply.unique hq hq' (fun hc => by simp [hlast hc]) (fun hc => by simp [hlast' hc]) he
      rw [ih hqs hqs' hrest]

namespace Server

/-- What the server may send on an event. -/
def possible (callback : Option RequestCallback) : List Reply :=
  .bad :: [false,true].filterMap fun closeFlag =>
    callback.bind fun f => (f (.init closeFlag)).toOption.map .response

/-- While the connection is open, what is sent is clean, and waits its turn. -/
def Answers (callback : Option RequestCallback) (ans : WriteAnswer) (ctl : CtlAnswer) (s : Session Exchange) : Prop :=
  ¬s.conn.Left → ∀ q ∈ possible callback, q.Clean ∧ s.conn.InTurn q.text ans ctl

instance (callback : Option RequestCallback) (ans : WriteAnswer) (ctl : CtlAnswer) (s : Session Exchange) :
    Decidable (Answers callback ans ctl s) := inferInstanceAs (Decidable (_ → _))

def InTurn (s : Session Exchange) : Label → Prop
  | .event _ env callback ans ctl => (Reads env.read s ∧ Sets callback) ∧ Answers callback ans ctl s
  | .loopPass => True

instance (s : Session Exchange) : (l : Label) → Decidable (InTurn s l)
  | .event _ env callback ans ctl =>
      inferInstanceAs (Decidable ((Reads env.read s ∧ Sets callback) ∧ Answers callback ans ctl s))
  | .loopPass => .isTrue trivial

theorem possible_response {f : RequestCallback} {closeFlag : Bool} {r : Response}
    (h : f (.init closeFlag) = .ok r) : .response r ∈ possible (some f) := by
  have hmem : closeFlag ∈ [false,true] := by cases closeFlag <;> simp
  exact List.mem_cons_of_mem _ (List.mem_filterMap.mpr ⟨closeFlag,hmem,by simp [h,Except.toOption]⟩)

end Server

def Replied (s : Conn) : Prop :=
  ∃ qs : List Reply, Replies qs ∧ s.Delivers (qs.flatMap Reply.text) ∧ (¬s.Left → ∀ q ∈ qs, q.closes = false)

theorem Replies.append {qs : List Reply} (h : Replies qs) (hopen : ∀ q ∈ qs, q.closes = false) {q : Reply}
    (hq : q.Clean) : Replies (qs ++ [q]) := by
  induction qs with
  | nil => exact ⟨hq,fun _ => rfl,trivial⟩
  | cons p qs ih =>
    obtain ⟨hp,_,hqs⟩ := h
    obtain ⟨hclose,hrest⟩ := List.forall_mem_cons.mp hopen
    exact ⟨hp,fun hc => by simp [hclose] at hc,ih hqs hrest⟩

section Conns
variable {s t : Conn}

theorem Replied.frame (hs : Replied s) (hd : ∀ {accepted}, s.Delivers accepted → t.Delivers accepted)
    (hl : s.Left → t.Left) : Replied t := by
  obtain ⟨qs,hqs,hdel,hopen⟩ := hs
  exact ⟨qs,hqs,hd hdel,fun ho => hopen (fun h => ho (hl h))⟩

theorem Replied.same (hs : Replied s) (hw : t.wire = s.wire) (ho : t.output = s.output) (he : s.SameEpoll t)
    (hn : t.nState = s.nState) (hc : t.sendCurrentIndex = s.sendCurrentIndex) : Replied t :=
  hs.frame (fun hd => hd.frame hw ho he hn hc) (fun hl => Ledger.left_of_nState hl hn)

theorem Replied.handleClose (hs : Replied s) (h : Handler) (env : CloseEnv) : Replied (h.handleClose env s).2 := by
  refine hs.frame (fun hd => hd.handleClose h env) (fun hl => ?_)
  rcases handleClose_left h env s with he | hleft
  · rw [he]
    exact hl
  · exact hleft

theorem shutdown_leaves (h : s.nState = .connected ∨ s.Left) : (Context.shutdown s).2.Left := by
  rcases shutdown_cases s with ⟨hc,he⟩ | ⟨_,_,he⟩ | ⟨_,_,he⟩ <;> rw [he]
  · exact h.resolve_left hc
  · exact .inl rfl
  · exact .inl rfl

end Conns

section Steps
variable {s : Session Exchange}

theorem Replied.reply (hs : Replied s.conn) {q : Reply} {ans : WriteAnswer} {ctl : CtlAnswer}
    (hturn : ¬s.conn.Left → q.Clean ∧ s.conn.InTurn q.text ans ctl) :
    Replied ((do
      let _ ← Session.onConn (Context.send q.text ans ctl)
      Act.onlyIf (q.closes = true) (Session.onConn Context.shutdown) : SessionAct Exchange Unit) s).2.conn := by
  obtain ⟨qs,hqs,hdel,hopen⟩ := hs
  have hsent := hdel.send q.text ans ctl (fun hl => (hturn hl).2)
  rw [Act.bind_apply,Session.onConn,Act.zoom_apply]
  -- a connection that is left refuses the text, and stays left
  by_cases hl : s.conn.Left
  · rw [send_left _ _ _ _ hl]
    have hleft : (Context.shutdown s.conn).2.Left := shutdown_leaves (.inr hl)
    by_cases hclose : q.closes = true
    · simp only [Act.onlyIf_true hclose]
      exact ⟨qs,hqs,hdel.shutdown,fun ho => absurd hleft ho⟩
    · simp only [Act.onlyIf_false hclose]
      exact ⟨qs,hqs,hdel,hopen⟩
  have hlinked := hdel.linked hl
  cases hr : Context.send q.text ans ctl s.conn with
  | mk res t =>
    rw [hr] at hsent
    cases res with
    -- nothing was accepted, and `shutdown` is not reached
    | error e =>
      simp only [acceptedBy,List.append_nil] at hsent
      exact ⟨qs,hqs,hsent,fun _ => hopen hl⟩
    | ok c =>
      dsimp only at hsent
      rw [send_accepts hl hlinked.inv.token hr] at hsent
      have hall : (qs ++ [q]).flatMap Reply.text = qs.flatMap Reply.text ++ q.text := by simp
      rw [← hall] at hsent
      have hmore := hqs.append (hopen hl) (hturn hl).1
      dsimp only
      by_cases hclose : q.closes = true
      · rw [Act.onlyIf_true hclose]
        refine ⟨qs ++ [q],hmore,hsent.shutdown,fun ho => absurd (shutdown_leaves ?_) ho⟩
        by_cases hleft : t.Left
        · exact .inr hleft
        · exact .inl (hsent.linked hleft).inv.nState
      · rw [Act.onlyIf_false hclose]
        refine ⟨qs ++ [q],hmore,hsent,fun _ p hp => ?_⟩
        rcases List.mem_append.mp hp with hp | hp
        · exact hopen hl p hp
        · rw [List.mem_singleton.mp hp]
          exact Bool.eq_false_iff.mpr hclose

theorem respond_cases (callback : Option RequestCallback) (call : Call) (s : Session Exchange) :
    ∃ res user, Server.respond callback call s = (res,{ s with user }) ∧
      ∀ r, res = .ok r → r.stream = none ∨ .response r ∈ Server.possible callback := by
  cases callback with
  | none =>
    refine ⟨_,s.user,rfl,fun r hr => .inl ?_⟩
    cases hr
    rfl
  | some f =>
    rw [Server.respond,Act.modify_bind]
    cases hres : f (.init call.closeFlag) with
    | error e =>
      refine ⟨.error e,_,rfl,fun r hr => ?_⟩
      cases hr
    | ok r =>
      refine ⟨.ok r,_,rfl,fun _ hr => .inr ?_⟩
      cases hr
      exact Server.possible_response hres

theorem Replied.answer (hs : Replied s.conn) {callback : Option RequestCallback} {ans : WriteAnswer} {ctl : CtlAnswer}
    (hanswers : Server.Answers callback ans ctl s) (request : Request) :
    Replied (Server.answer callback ans ctl request s).2.conn := by
  simp only [Server.answer]
  obtain ⟨res,user,he,hres⟩ := respond_cases callback ⟨{ request with headers := (request.headers.access connection).2 },
    decide ((request.headers.access connection).1 = close ∨
      (request.version = .v10 ∧ (request.headers.access connection).1 ≠ keepAlive))⟩ s
  rw [Act.bind_apply,he]
  cases res with
  | error e => exact hs
  | ok r =>
    cases hstream : r.stream with
    | none =>
      simp only [hstream]
      exact hs
    | some text =>
      have hmem := (hres r rfl).resolve_left (by simp [hstream])
      have htext : (Reply.response r).text = text := by simp [Reply.text,hstream]
      have hreply := Replied.reply (s := { s with user }) hs (fun hl => hanswers hl _ hmem)
      rw [htext] at hreply
      simp only [hstream]
      exact hreply

theorem Replied.onMessage (hs : Replied s.conn) {callback : Option RequestCallback} {ans : WriteAnswer}
    {ctl : CtlAnswer} (hanswers : Server.Answers callback ans ctl s) :
    Replied (Server.onMessage callback ans ctl s).2.conn := by
  rw [Server.onMessage,Act.get_bind]
  rcases Parser.parse s.conn.input.content 4 s.user.any with ⟨_ | _ | parsed,message⟩
  · exact hs
  · exact hs
  · dsimp only
    by_cases hbad : parsed < 0
    · rw [if_pos hbad]
      have hreply := hs.reply (q := .bad) (fun hl => hanswers hl _ List.mem_cons_self)
      exact hreply
    · rw [if_neg hbad]
      have hread : Replied (Server.hasRead parsed.toNat s).2.conn :=
        hs.same rfl rfl ⟨rfl,rfl,rfl,rfl⟩ rfl rfl
      rw [Server.hasRead,Act.modify_bind]
      by_cases hready : message.state = .ready
      · rw [Act.onlyIf_true hready]
        exact hread.answer hanswers _
      · rw [Act.onlyIf_false hready]
        exact hread

theorem Replied.handleRead (hs : Replied s.conn) {env : EventEnv} (hin : s.conn.input.Wf) (hread : Server.Reads env.read s)
    {callback : Option RequestCallback} {ans : WriteAnswer} {ctl : CtlAnswer}
    (hanswers : Server.Answers callback ans ctl s) :
    Replied (Session.handleRead Server.handler (Server.onMessage callback ans ctl) env s).2.conn := by
  obtain ⟨i,n,hi,_⟩ := Session.readInput_got hin env.read hread.1
  let t : Session Exchange := { s with
    received := s.received ++ env.read.got s.conn.input
    conn := { s.conn with input := i, eof := s.conn.eof || n == 0 } }
  have ht : Replied t.conn := hs.same rfl rfl ⟨rfl,rfl,rfl,rfl⟩ rfl rfl
  refine Session.handleRead_holds (I := fun t => Replied t.conn) Server.handler hi ht (fun _ _ => ?_)
    (ht.handleClose Server.handler env.fin)
  have hrecord : Replied (Session.onConn (record .message) t).2.conn := ht.same rfl rfl ⟨rfl,rfl,rfl,rfl⟩ rfl rfl
  exact hrecord.onMessage hanswers

structure Exchanging (s : Session Exchange) : Prop where
  served : Served s
  replied : Replied s.conn

theorem Exchanging.dispatch (hs : Exchanging s) (revent : EventBitmap) (env : EventEnv)
    {callback : Option RequestCallback} {ans : WriteAnswer} {ctl : CtlAnswer} (hread : Server.Reads env.read s)
    (hset : Server.Sets callback) (hanswers : Server.Answers callback ans ctl s) :
    Exchanging (Session.dispatch Server.handler (Server.onMessage callback ans ctl) revent env s).2 := by
  refine Session.dispatch_holds (I := Exchanging)
    (A := fun t => Server.Reads env.read t ∧ Server.Answers callback ans ctl t) Server.handler ?_ ?_ ?_ ?_ ?_
    revent hs ⟨hread,hanswers⟩
  · rintro t eof ⟨ht,hready⟩
    exact ⟨⟨ht.served.frame rfl,ht.replied.same rfl rfl ⟨rfl,rfl,rfl,rfl⟩ rfl rfl⟩,hready⟩
  · exact fun e t ht => ⟨ht.served.frame rfl,ht.replied.same rfl rfl ⟨rfl,rfl,rfl,rfl⟩ rfl rfl⟩
  · rintro t ⟨ht,hr,ha⟩
    have hbytes := handleClose_bytes Server.handler env.hup t.conn
    refine ⟨⟨ht.served.frame hbytes.input,ht.replied.handleClose Server.handler env.hup⟩,?_,?_⟩
    · rw [Session.onConn,Act.zoom_apply,Server.Reads]
      dsimp only
      rw [hbytes.input]
      exact hr
    · rw [Session.onConn,Act.zoom_apply]
      rcases handleClose_left Server.handler env.hup t.conn with he | hl
      · rw [he]
        exact ha
      · exact fun ho => absurd hl ho
  · rintro t ht ⟨hr,ha⟩
    exact ⟨ht.served.handleRead hr hset ans ctl,ht.replied.handleRead ht.served.input hr ha⟩
  · refine fun t ht => ⟨ht.served.frame (handleWrite_input env.write env.ctl t.conn),?_⟩
    exact ht.replied.frame (fun hd => hd.handleWrite env.write env.ctl)
      (fun hl => Ledger.left_of_nState hl (Ledger.handleWrite_nState env.write env.ctl t.conn))

theorem accepted_exchanging : Exchanging Server.accepted :=
  ⟨accepted_served,[],trivial,begun_delivers Server.handler none,fun _ _ hq => nomatch hq⟩

/-- What the server sends on a connection, in any run in which what it sends waits its turn:
replies, one behind the other, of which only the last may close; while the connection
is open, what is sent and queued is those replies and can be read as no others. -/
theorem http_replies (h : Path Server.step Server.InTurn Server.accepted s) :
    (∃ qs, Replies qs ∧ s.conn.wire <+: qs.flatMap Reply.text) ∧
      (¬s.conn.Left → ∃! qs, Replies qs ∧ s.conn.wire ++ s.conn.output.content = qs.flatMap Reply.text) := by
  have hs : Exchanging s := by
    refine h.keeps (I := Exchanging) (fun s l t hl ht hs => ?_) accepted_exchanging
    cases l with
    | event revent env callback ans ctl =>
      cases ht
      exact hs.dispatch revent env hl.1.1 hl.1.2 hl.2
    | loopPass =>
      cases ht
      refine ⟨hs.served.frame (loopPass_bytes s.conn).input,hs.replied.frame (fun hd => hd.loopPass) (fun hleft => ?_)⟩
      exact Ledger.left_of_nState hleft (Ledger.loopPass_nState hleft)
  obtain ⟨qs,hqs,hdel,_⟩ := hs.replied
  refine ⟨⟨qs,hqs,hdel.wire⟩,fun hopen => ?_⟩
  have hordered := (hdel.linked hopen).inv.ordered
  exact ⟨qs,⟨hqs,hordered⟩,fun qs' ⟨hqs',he⟩ => replies_framed hqs' hqs (he.symm.trans hordered)⟩

def found : Response := { Response.init false with code := some 200 }

theorem http_replies_pipelined : ∃ s : Session Exchange,
    s.conn.wire ++ s.conn.output.content = found.stream.getD [] ++ found.stream.getD [] ∧
      ∃! qs, Replies qs ∧ s.conn.wire ++ s.conn.output.content = qs.flatMap Reply.text := by
  have hrun : (run Server.step Server.InTurn Server.accepted [asks (getLine ++ getLine),asks [13]]).any (fun s =>
      s.conn.wire ++ s.conn.output.content = found.stream.getD [] ++ found.stream.getD [] ∧ ¬s.conn.Left) := by
    decide +kernel
  obtain ⟨s,hs,hcond⟩ := (Option.any_eq_true _ _).mp hrun
  obtain ⟨hwire,hopen⟩ := of_decide_eq_true hcond
  exact ⟨s,hwire,(http_replies (run_path hs)).2 hopen⟩

end Steps

end Http
end FluentNet
