import FluentNet.Http.Request
set_option autoImplicit false

/-!
The parser of the HTTP example, and the requests that it reads: request lines, whatever
comes behind them.
-/

namespace FluentNet
namespace Http
open Throwing Scan

inductive StreamState where
  | init | nextHeader | nextBody | ready
  deriving DecidableEq, Repr

structure Message where
  state : StreamState
  request : Request
  deriving DecidableEq, Repr

def Message.init : Message := ⟨.init,.init⟩

structure Parsing where
  message : Message
  consumed : Int
  hasNext : Bool
  deriving DecidableEq, Repr

namespace Parser

def httpLiteral : Text := [72,84,84,80,47,49,46,0]

def unsupported : Exn := .fluentException "currently does not support query"

/-- The end of `parseNextLine`, on what is between the path and the end of the line. -/
def setVersion (version : Text) : Act Exn Request Bool :=
  if version.length = 8 ∧ agree version.dropLast httpLiteral = some true then
    match version.getLast? with
    | some 48 => do
        Act.modify (fun request => { request with version := .v10 })
        pure true
    | some 49 => do
        Act.modify (fun request => { request with version := .v11 })
        pure true
    | _ => pure false
  else pure false

def parseNextLine (line : Text) : Act Exn Request Bool := do
  let (token,space) := find SP line
  if space = [] then pure false
  else
    let methodDone ← setMethod token
    if !methodDone then pure false
    else
      let (path,space) := find SP space.tail
      if QUESTION ∈ path then Act.throw unsupported
      else
        Act.modify (fun request => { request with path })
        match space with
        -- then `first` is behind `last`
        | [] => pure false
        | _ :: first => setVersion (first.take (first.length-2))

def lineEnd (data : Text) : Option (Text × Text) :=
  match find CR data with
  | (before,_ :: c :: next) => if c = LF then some (before,next) else none
  | _ => none

def onRequest {α : Type} : Act Exn Request α → Act Exn Parsing α :=
  Act.zoom (fun s => s.message.request)
    (fun s request => { s with message := { s.message with request } })

def parseInit (data : Text) : Act Exn Parsing Bool :=
  match lineEnd data with
  | some (before,next) =>
      if before ≠ [] then do
        let done ← onRequest (parseNextLine (before ++ [CR,LF]))
        if !done then pure false
        else
          Act.modify (fun s => { s with
            message := { s.message with state := .nextHeader }
            consumed := s.consumed+(before.length+2)
            hasNext := next ≠ [] })
          pure true
      else do
        Act.modify (fun s => { s with hasNext := false })
        pure true
  | none => do
      Act.modify (fun s => { s with hasNext := false })
      pure true

def parseNextHeader (data : Text) : Act Exn Parsing Bool :=
  match lineEnd data with
  | some (before,next) =>
      if before = [] then
        let (header,pos) := find COLON before
        if pos = [] then pure false
        else do
          onRequest (Act.modify (fun request => { request with
            headers := request.headers.assign header (pos.drop 2) }))
          Act.modify (fun s => { s with
            consumed := s.consumed+(before.length+2)
            hasNext := next ≠ [] })
          pure true
      else do
        Act.modify (fun s => { s with message := { s.message with state := .ready } })
        pure true
  | none => do
      Act.modify (fun s => { s with hasNext := false })
      pure true

/-- The loop of `parse`, for so many turns at most. -/
def loop (data : Text) : ℕ → Act Exn Parsing (Option Int)
  | 0 => pure none
  | n+1 => do
      let s ← Act.get
      if s.hasNext then
        match s.message.state with
        | .init => do
            let good ← parseInit data
            if good then loop data n else pure (some (-400))
        | .nextHeader => do
            let good ← parseNextHeader data
            if good then loop data n else pure (some (-400))
        | _ => do
            Act.modify (fun s => { s with hasNext := false })
            loop data n
      else pure (some s.consumed)

/-- `parse`; the message afterwards is what it was given by reference. -/
def parse (data : Text) (turns : ℕ) : Act Exn Message (Option Int) := fun message =>
  let (result,s) := loop data turns ⟨message,0,true⟩
  (result,s.message)

end Parser

def Version.digit : Version → UInt8
  | .v10 => 48
  | _ => 49

/-- A request line. The last byte of its token may be any. -/
structure Line where
  token : Text
  method : Method
  path : Text
  version : Version
  names : Names token method
  token_clean : SP ∉ token ∧ CR ∉ token
  path_clean : SP ∉ path ∧ CR ∉ path ∧ QUESTION ∉ path
  known : version ≠ .unknown

namespace Line

def version8 (version : Version) : Text := [72,84,84,80,47,49,46,version.digit]

def before (l : Line) : Text := l.token ++ SP :: (l.path ++ SP :: version8 l.version)

def bytes (l : Line) : Text := l.before ++ [CR,LF]

def request (l : Line) : Request := ⟨l.method,l.version,l.path,[]⟩

end Line

def Query (before : Text) : Prop :=
  ∃ token method front back, Names token method ∧ SP ∉ token ∧ SP ∉ front ∧
    before = token ++ SP :: (front ++ QUESTION :: back)

inductive Reads (before : Text) : Except Exn (Option Int) → Prop where
  | line (l : Line) (h : before = l.before) : Reads before (.ok (some l.bytes.length))
  | query (h : Query before) : Reads before (.error Parser.unsupported)
  | bad (hline : ∀ l : Line, before ≠ l.before) (hquery : ¬Query before) :
      Reads before (.ok (some (-400)))

/-- What becomes of the bytes that are there. Only a first line that ends, and is not
empty, is looked at. -/
inductive Parses : Text → Except Exn (Option Int) → Prop where
  | waits {data : Text} (h : ∀ before next, before ≠ [] → CR ∉ before →
      data ≠ before ++ CR :: LF :: next) : Parses data (.ok (some 0))
  | reads {before : Text} (next : Text) {r : Except Exn (Option Int)} (hne : before ≠ [])
      (hcr : CR ∉ before) (h : Reads before r) : Parses (before ++ CR :: LF :: next) r

namespace Parser

theorem lineEnd_append {before : Text} (h : CR ∉ before) (next : Text) :
    lineEnd (before ++ CR :: LF :: next) = some (before,next) := by
  simp [lineEnd,find_append h]

theorem lineEnd_cases (data : Text) :
    (lineEnd data = none ∧ ∀ before next, CR ∉ before → data ≠ before ++ CR :: LF :: next) ∨
    ∃ before next, CR ∉ before ∧ data = before ++ CR :: LF :: next ∧ lineEnd data = some (before,next) := by
  by_cases h : ∃ before next, CR ∉ before ∧ data = before ++ CR :: LF :: next
  · obtain ⟨before,next,hcr,rfl⟩ := h
    exact .inr ⟨before,next,hcr,rfl,lineEnd_append hcr next⟩
  · refine .inl ⟨?_,fun before next hcr he => h ⟨before,next,hcr,he⟩⟩
    rcases find_cases CR data with ⟨_,hfind⟩ | ⟨before,rest,hcr,rfl,hfind⟩
    · simp [lineEnd,hfind]
    · cases rest with
      | nil => simp [lineEnd,hfind]
      | cons c next =>
        by_cases hc : c = LF
        · exact absurd ⟨before,next,hcr,hc ▸ rfl⟩ h
        · simp [lineEnd,hfind,hc]

end Parser

namespace Line
variable (l : Line)

theorem version8_clean (version : Version) : SP ∉ version8 version ∧ CR ∉ version8 version := by
  cases version <;> decide

theorem before_clean : CR ∉ l.before := by
  simp only [before,List.mem_append,List.mem_cons,not_or]
  exact ⟨l.token_clean.2,by decide,l.path_clean.2.1,by decide,(version8_clean l.version).2⟩

theorem before_ne_nil : l.before ≠ [] := by simp [before]

theorem bytes_append (next : Text) : l.bytes ++ next = l.before ++ CR :: LF :: next := by
  simp [bytes]

theorem bytes_length : l.bytes.length = l.before.length+2 := by simp [bytes]

theorem not_query : ¬Query l.before := by
  rintro ⟨token,method,front,back,_,htoken,hfront,he⟩
  obtain ⟨rfl,hrest⟩ := split_unique l.token_clean.1 htoken he
  have hmem : QUESTION ∈ l.path := by
    rcases List.append_eq_append_iff.mp hrest with ⟨mid,rfl,hmid⟩ | ⟨mid,hpath,hmid⟩
    · cases mid with
      | nil =>
        have hhead := congrArg List.head? hmid
        simp [SP,QUESTION] at hhead
      | cons c mid =>
        have hhead : c = SP := by simpa using (congrArg List.head? hmid).symm
        exact absurd (hhead ▸ List.mem_append_right _ List.mem_cons_self) hfront
    · cases mid with
      | nil =>
        have hhead := congrArg List.head? hmid
        simp [SP,QUESTION] at hhead
      | cons c mid =>
        have hhead : c = QUESTION := by simpa using (congrArg List.head? hmid).symm
        rw [hpath,hhead]
        exact List.mem_append_right _ List.mem_cons_self
  exact l.path_clean.2.2 hmem

end Line

inductive NextLine (before : Text) (request : Request) : Except Exn Bool → Request → Prop where
  | line (l : Line) (h : before = l.before) : NextLine before request (.ok true)
      { request with method := l.method, version := l.version, path := l.path }
  | query (h : Query before) (after : Request) : NextLine before request (.error Parser.unsupported) after
  | bad (hline : ∀ l : Line, before ≠ l.before) (hquery : ¬Query before) (after : Request) :
      NextLine before request (.ok false) after
  | undefined (h : 0 ∈ before) (after : Request) : NextLine before request (.error .undefined) after

namespace Parser

theorem version_eq {version : Text} (hlength : version.length = 8)
    (hagree : version.dropLast <+: httpLiteral) {digit : UInt8} (hlast : version.getLast? = some digit) :
    version = [72,84,84,80,47,49,46,digit] := by
  have hlen : version.dropLast.length = 7 := by rw [List.length_dropLast,hlength]
  have hdrop : version.dropLast = httpLiteral.take 7 := by
    rw [← take_eq_take hagree (Nat.le_of_eq hlen.symm),← hlen,List.take_length]
  have hsplit := List.dropLast_append_getLast? digit hlast
  rw [hdrop] at hsplit
  exact hsplit.symm

theorem setVersion_cases (version : Text) (request : Request) :
    (∃ known, known ≠ .unknown ∧ version = Line.version8 known ∧
      setVersion version request = (.ok true,{ request with version := known })) ∨
    ((∀ known, known ≠ .unknown → version ≠ Line.version8 known) ∧
      setVersion version request = (.ok false,request)) := by
  by_cases hknown : ∃ known, known ≠ Version.unknown ∧ version = Line.version8 known
  · obtain ⟨known,hne,rfl⟩ := hknown
    refine .inl ⟨known,hne,rfl,?_⟩
    cases known with
    | unknown => exact absurd rfl hne
    | v10 => rfl
    | v11 => rfl
  · refine .inr ⟨fun known hne he => hknown ⟨known,hne,he⟩,?_⟩
    by_cases hcond : version.length = 8 ∧ agree version.dropLast httpLiteral = some true
    · obtain ⟨hlength,hagree⟩ := hcond
      have hne : version ≠ [] := by
        rintro rfl
        cases hlength
      have hlast := List.getLast?_eq_some_getLast hne
      have heq := version_eq hlength (agree_true.mp hagree) hlast
      have h10 : version.getLast hne ≠ 48 := fun hd => hknown ⟨.v10,by decide,by rw [heq,hd]; rfl⟩
      have h11 : version.getLast hne ≠ 49 := fun hd => hknown ⟨.v11,by decide,by rw [heq,hd]; rfl⟩
      simp [setVersion,hlength,hagree,hlast,h10,h11]
    · simp [setVersion,hcond]

theorem notMem_end {c : UInt8} {before : Text} (h : c ∉ before) (hcr : c ≠ CR) (hlf : c ≠ LF) :
    c ∉ before ++ [CR,LF] := by
  simp [h,hcr,hlf]

theorem begins_with {token : Text} (rest : Text) (htoken : SP ∉ token) :
    (∀ l : Line, token ++ SP :: rest = l.before →
      token = l.token ∧ rest = l.path ++ SP :: Line.version8 l.version) ∧
    (Query (token ++ SP :: rest) → ∃ method front back, Names token method ∧ SP ∉ front ∧
      rest = front ++ QUESTION :: back) := by
  refine ⟨fun l hl => split_unique htoken l.token_clean.1 hl,?_⟩
  rintro ⟨token',method,front,back,hnames,htoken',hfront,he⟩
  obtain ⟨rfl,hrest⟩ := split_unique htoken htoken' he
  exact ⟨method,front,back,hnames,hfront,hrest⟩

theorem parsePath_cases {token rest : Text} {method : Method} (hnames : Names token method)
    (htoken : SP ∉ token) (hcr : CR ∉ token ++ SP :: rest) (request : Request) :
    let (path,space) := find SP (rest ++ [CR,LF])
    let tail : Act Exn Request Bool :=
      if QUESTION ∈ path then Act.throw unsupported
      else do
        Act.modify (fun request => { request with path })
        match space with
        | [] => pure false
        | _ :: first => setVersion (first.take (first.length-2))
    NextLine (token ++ SP :: rest) request (tail { request with method }).1
      (tail { request with method }).2 := by
  obtain ⟨hline,hquery⟩ := begins_with rest htoken
  rcases find_cases SP rest with ⟨hno,_⟩ | ⟨path,version,hpath,rfl,_⟩
  · have hno' := notMem_end hno (by decide) (by decide)
    rw [find_of_notMem hno']
    have hlines : ∀ l : Line, token ++ SP :: rest ≠ l.before := fun l hl =>
      hno ((hline l hl).2 ▸ List.mem_append_right _ List.mem_cons_self)
    by_cases hq : QUESTION ∈ rest
    · have hmem : QUESTION ∈ rest ++ [CR,LF] := List.mem_append_left _ hq
      obtain ⟨front,back,rfl,_⟩ := List.eq_append_cons_of_mem hq
      simp only [hmem,↓reduceIte,Act.throw_apply]
      refine .query ⟨token,method,front,back,hnames,htoken,?_,rfl⟩ _
      exact fun hmem => hno (List.mem_append_left _ hmem)
    · have hmem := notMem_end hq (by decide) (by decide)
      simp only [hmem,↓reduceIte]
      refine .bad hlines (fun hquery' => ?_) _
      obtain ⟨_,front,back,_,_,rfl⟩ := hquery hquery'
      exact hq (List.mem_append_right _ List.mem_cons_self)
  · have hfind : find SP ((path ++ SP :: version) ++ [CR,LF]) = (path,SP :: (version ++ [CR,LF])) := by
      rw [List.append_assoc]
      exact find_append hpath _
    have htake : (version ++ [CR,LF]).take ((version ++ [CR,LF]).length-2) = version := by simp
    rw [hfind]
    by_cases hq : QUESTION ∈ path
    · obtain ⟨front,back,rfl,_⟩ := List.eq_append_cons_of_mem hq
      simp only [hq,↓reduceIte,Act.throw_apply]
      refine .query ⟨token,method,front,back ++ SP :: version,hnames,htoken,?_,by simp⟩ _
      exact fun hmem => hpath (List.mem_append_left _ hmem)
    · have hnot : ¬Query (token ++ SP :: (path ++ SP :: version)) := by
        intro hquery'
        obtain ⟨_,front,back,_,hfront,he⟩ := hquery hquery'
        rcases List.append_eq_append_iff.mp he with ⟨mid,rfl,hmid⟩ | ⟨mid,rfl,hmid⟩
        · cases mid with
          | nil => simp [SP,QUESTION] at hmid
          | cons c mid =>
            cases hmid
            simp at hfront
        · cases mid with
          | nil => simp [SP,QUESTION] at hmid
          | cons c mid =>
            cases hmid
            simp at hq
      simp only [hq,↓reduceIte,htake,Act.modify_bind]
      rcases setVersion_cases version { request with method, path } with
        ⟨known,hne,rfl,he⟩ | ⟨hall,he⟩ <;> rw [he]
      · simp only [List.mem_append,List.mem_cons,not_or] at hcr
        exact .line ⟨token,method,path,known,hnames,⟨htoken,hcr.1⟩,⟨hpath,hcr.2.2.1,hq⟩,hne⟩ rfl
      · refine .bad (fun l hl => ?_) hnot _
        exact hall l.version l.known (split_unique hpath l.path_clean.1 (hline l hl).2).2

theorem parseNextLine_cases {before : Text} (hcr : CR ∉ before) (request : Request) :
    NextLine before request (parseNextLine (before ++ [CR,LF]) request).1
      (parseNextLine (before ++ [CR,LF]) request).2 := by
  rcases find_cases SP before with ⟨hno,_⟩ | ⟨token,rest,htoken,rfl,_⟩
  · have hno' := notMem_end hno (by decide) (by decide)
    simp only [parseNextLine,find_of_notMem hno',↓reduceIte,Act.pure_apply]
    refine .bad (fun l hl => hno ?_) (fun hq => hno ?_) _
    · rw [hl]
      exact List.mem_append_right _ List.mem_cons_self
    · obtain ⟨token,_,_,_,_,_,_,rfl⟩ := hq
      exact List.mem_append_right _ List.mem_cons_self
  · have hfind : find SP ((token ++ SP :: rest) ++ [CR,LF]) = (token,SP :: (rest ++ [CR,LF])) := by
      rw [List.append_assoc]
      exact find_append htoken _
    obtain ⟨hline,hquery⟩ := begins_with rest htoken
    simp only [parseNextLine,hfind,List.cons_ne_nil,↓reduceIte,List.tail_cons]
    rcases setMethod_cases token request with ⟨method,hnames,hset⟩ | ⟨hnot,hset | ⟨hzero,hset⟩⟩
    · rw [Act.bind_of_ok hset]
      exact parsePath_cases hnames htoken hcr request
    · rw [Act.bind_of_ok hset]
      refine .bad (fun l hl => hnot l.method ((hline l hl).1 ▸ l.names)) (fun hq => ?_) _
      obtain ⟨method,_,_,hnames,_⟩ := hquery hq
      exact hnot method hnames
    · rw [Act.bind_of_error hset]
      exact .undefined (List.mem_append_left _ hzero) _

section Turns
variable (data : Text) (n : ℕ) {s : Parsing}

theorem loop_done (h : s.hasNext = false) : loop data (n+1) s = (.ok (some s.consumed),s) := by
  simp [loop,h]

theorem loop_init (h : s.hasNext = true) (hstate : s.message.state = .init) :
    loop data (n+1) s = (parseInit data >>= fun good =>
      if good then loop data n else pure (some (-400))) s := by
  simp [loop,h,hstate]

theorem loop_nextHeader (h : s.hasNext = true) (hstate : s.message.state = .nextHeader) :
    loop data (n+1) s = (parseNextHeader data >>= fun good =>
      if good then loop data n else pure (some (-400))) s := by
  simp [loop,h,hstate]

theorem loop_ready (h : s.hasNext = true) (hstate : s.message.state = .ready) :
    loop data (n+2) s = (.ok (some s.consumed),{ s with hasNext := false }) := by
  simp [loop,h,hstate]

end Turns

/-- With a line's end ahead, `parse` does as `parseNextLine` says; what is behind the line
decides whether the message is ready, for the parser looks at the line again. -/
theorem parse_lineEnd {before : Text} (hne : before ≠ []) (hcr : CR ∉ before) (next : Text) (n : ℕ) :
    parse (before ++ CR :: LF :: next) (n+4) .init =
      match parseNextLine (before ++ [CR,LF]) .init with
      | (.ok true,request) => (.ok (some (before.length+2)),⟨if next = [] then .nextHeader else .ready,request⟩)
      | (.ok false,request) => (.ok (some (-400)),⟨.init,request⟩)
      | (.error e,request) => (.error e,⟨.init,request⟩) := by
  have hend := lineEnd_append hcr next
  have hinit : parseInit (before ++ CR :: LF :: next) ⟨.init,0,true⟩ =
      match parseNextLine (before ++ [CR,LF]) .init with
      | (.ok true,request) => (.ok true,⟨⟨.nextHeader,request⟩,before.length+2,next ≠ []⟩)
      | (.ok false,request) => (.ok false,⟨⟨.init,request⟩,0,true⟩)
      | (.error e,request) => (.error e,⟨⟨.init,request⟩,0,true⟩) := by
    simp only [parseInit,hend,if_pos hne]
    rw [Act.bind_apply,onRequest,Act.zoom_apply]
    simp only [Message.init]
    rcases parseNextLine (before ++ [CR,LF]) .init with ⟨res,request⟩
    cases res with
    | error e => rfl
    | ok done => cases done <;> simp
  have hheader : ∀ s, parseNextHeader (before ++ CR :: LF :: next) s =
      (.ok true,{ s with message := { s.message with state := .ready } }) := by
    intro s
    simp [parseNextHeader,hend,hne]
  rw [parse,loop_init _ _ rfl rfl,Act.bind_apply,hinit]
  rcases parseNextLine (before ++ [CR,LF]) .init with ⟨res,request⟩
  cases res with
  | error e => rfl
  | ok done =>
    cases done with
    | false => rfl
    | true =>
      by_cases hnext : next = []
      · simp [hnext,loop_done]
      · have hready := loop_nextHeader (before ++ CR :: LF :: next) (n+2)
          (s := ⟨⟨.nextHeader,request⟩,before.length+2,true⟩) rfl rfl
        rw [Act.bind_of_ok (hheader _)] at hready
        simp [hnext,hready,loop_ready]

theorem parse_waits {data : Text} (h : ∀ before next, before ≠ [] → CR ∉ before →
    data ≠ before ++ CR :: LF :: next) (n : ℕ) : parse data (n+4) .init = (.ok (some 0),.init) := by
  have hinit : parseInit data ⟨.init,0,true⟩ = (.ok true,⟨.init,0,false⟩) := by
    rcases lineEnd_cases data with ⟨hend,_⟩ | ⟨before,next,hcr,rfl,hend⟩
    · simp [parseInit,hend]
    · have hempty : before = [] := by
        by_contra hne
        exact h before next hne hcr rfl
      simp only [parseInit,hend]
      simp [hempty]
  rw [parse,loop_init _ _ rfl rfl,Act.bind_of_ok hinit,if_pos rfl,loop_done _ _ rfl]

end Parser

/-- Every input is of one of the kinds, if no token of it runs past a literal. -/
theorem Parses.total {data : Text} (hzero : 0 ∉ data) (n : ℕ) :
    Parses data (Parser.parse data (n+4) .init).1 := by
  by_cases hend : ∃ before next, before ≠ [] ∧ CR ∉ before ∧ data = before ++ CR :: LF :: next
  · obtain ⟨before,next,hne,hcr,rfl⟩ := hend
    rw [Parser.parse_lineEnd hne hcr]
    have hnext := Parser.parseNextLine_cases hcr .init
    rcases hres : Parser.parseNextLine (before ++ [CR,LF]) .init with ⟨res,request⟩
    rw [hres] at hnext
    refine .reads next hne hcr ?_
    cases hnext with
    | line l h =>
      have hlength : ((before.length : Int)+2) = (l.bytes.length : Nat) := by
        rw [h,l.bytes_length]
        rfl
      simp only [hlength]
      exact .line l h
    | query h => exact .query h
    | bad hline hquery => exact .bad hline hquery
    | undefined h => exact absurd (List.mem_append_left _ h) hzero
  · rw [Parser.parse_waits (fun before next hne hcr he => hend ⟨before,next,hne,hcr,he⟩)]
    exact .waits (fun before next hne hcr he => hend ⟨before,next,hne,hcr,he⟩)

theorem Reads.unique {before : Text} {r r' : Except Exn (Option Int)} (h : Reads before r)
    (h' : Reads before r') : r = r' := by
  cases h with
  | line l h =>
    cases h' with
    | line l' h' => rw [l.bytes_length,l'.bytes_length,← h,← h']
    | query hq => exact absurd (h ▸ hq) l.not_query
    | bad hline => exact absurd h (hline l)
  | query hq =>
    cases h' with
    | line l' h' => exact absurd (h' ▸ hq) l'.not_query
    | query => rfl
    | bad _ hquery => exact absurd hq hquery
  | bad hline hquery =>
    cases h' with
    | line l' h' => exact absurd h' (hline l')
    | query hq => exact absurd hq hquery
    | bad => rfl

/-- The kinds exclude each other. -/
theorem Parses.unique {data : Text} {r r' : Except Exn (Option Int)} (h : Parses data r)
    (h' : Parses data r') : r = r' := by
  cases h with
  | waits hwait =>
    cases h' with
    | waits => rfl
    | reads next hne hcr => exact absurd rfl (hwait _ next hne hcr)
  | reads next hne hcr hreads =>
    generalize hdata : _ ++ CR :: LF :: next = data at h'
    cases h' with
    | waits hwait => exact absurd hdata.symm (hwait _ next hne hcr)
    | reads next' hne' hcr' hreads' =>
      obtain ⟨rfl,_⟩ := split_unique hcr hcr' hdata
      exact hreads.unique hreads'

theorem Line.request_unique {l l' : Line} (h : l.before = l'.before) : l.request = l'.request := by
  obtain ⟨htoken,hrest⟩ := split_unique l.token_clean.1 l'.token_clean.1 h
  obtain ⟨hpath,hversion⟩ := split_unique l.path_clean.1 l'.path_clean.1 hrest
  have hmethod : l.method = l'.method := l.names.unique (htoken ▸ l'.names)
  have hknown : l.version = l'.version := by
    have hdigit : l.version.digit = l'.version.digit := by simpa [Line.version8] using hversion
    have hall : ∀ v w : Version, v ≠ .unknown → w ≠ .unknown → v.digit = w.digit → v = w := by
      intro v w
      cases v <;> cases w <;> simp [Version.digit]
    exact hall _ _ l.known l'.known hdigit
  simp [Line.request,hmethod,hpath,hknown]

theorem parse_line (l : Line) (hzero : 0 ∉ l.before) (next : Text) (n : ℕ) :
    Parser.parse (l.bytes ++ next) (n+4) .init = (.ok (some l.bytes.length),
      ⟨if next = [] then .nextHeader else .ready,l.request⟩) := by
  rw [l.bytes_append,Parser.parse_lineEnd l.before_ne_nil l.before_clean]
  have hnext := Parser.parseNextLine_cases l.before_clean .init
  rcases hres : Parser.parseNextLine (l.before ++ [CR,LF]) .init with ⟨res,request⟩
  rw [hres] at hnext
  cases hnext with
  | line l' h =>
    have hlength : ((l.before.length : Int)+2) = (l.bytes.length : Nat) := by
      rw [l.bytes_length]
      rfl
    have hrequest : { Request.init with method := l'.method, version := l'.version, path := l'.path } =
        l.request := (Line.request_unique h).symm
    simp only [hlength,hrequest]
  | query h => exact absurd h l.not_query
  | bad hline => exact absurd rfl (hline l)
  | undefined h => exact absurd h hzero

end Http
end FluentNet
