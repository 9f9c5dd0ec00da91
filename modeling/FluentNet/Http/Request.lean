import FluentNet.Library.Scan
import FluentNet.Library.Throwing
import FluentNet.Throws
import FluentNet.Utils.StringUtils
set_option autoImplicit false

/-! The requests and the responses of the HTTP example. -/

namespace FluentNet
namespace Http
open Throwing Scan

abbrev Text := List UInt8

def CR : UInt8 := 13
def LF : UInt8 := 10
def SP : UInt8 := 32
def COLON : UInt8 := 58
def QUESTION : UInt8 := 63

inductive Method where
  | unknown | get | post | head | put | delete
  deriving DecidableEq, Repr

inductive Version where
  | unknown | v10 | v11
  deriving DecidableEq, Repr

abbrev HeaderList := List (Text × Text)

/-- `headers[key]`, which makes an entry where there is none -/
def HeaderList.access (headers : HeaderList) (key : Text) : Text × HeaderList :=
  match headers.lookup key with
  | some content => (content,headers)
  | none => ([],headers ++ [(key,[])])

def HeaderList.assign (headers : HeaderList) (key content : Text) : HeaderList :=
  headers.filter (fun header => header.1 ≠ key) ++ [(key,content)]

structure Request where
  method : Method
  version : Version
  path : Text
  headers : HeaderList
  deriving DecidableEq, Repr

def Request.init : Request := ⟨.unknown,.unknown,[],[]⟩

/-- The literals of `setMethod` in the order in which they are tried, each with the
zero behind it. -/
def methods : List (Method × Text) :=
  [(.get,[71,69,84,0]),(.put,[80,85,84,0]),(.post,[80,79,83,84,0]),(.head,[72,69,65,68,0]),
   (.delete,[68,69,76,69,84,69,0])]

/-- `std::equal(first, last, literal)` for each literal. What is behind a literal's zero is not
the program's to read. -/
def tryMethods (token : Text) : List (Method × Text) → Act Exn Request Bool
  | [] => pure false
  | (method,literal) :: rest =>
      match agree token literal with
      | none => Act.throw .undefined
      | some true => do
          Act.modify (fun request => { request with method })
          pure true
      | some false => tryMethods token rest

def setMethod (token : Text) : Act Exn Request Bool :=
  if token.length ≥ 3 then tryMethods token.dropLast methods else pure false

structure Response where
  /-- nothing until it is set -/
  code : Option Nat
  message : Text
  headers : HeaderList
  body : Text
  closeFlag : Bool
  deriving DecidableEq, Repr

def statusPrefix : Text := [72,84,84,80,47,49,46,49,32]

def closeHeader : Text :=
  [13,10,67,111,110,110,101,99,116,105,111,110,58,32,99,108,111,115,101,13,10]

def contentLength : Text := [13,10,67,111,110,116,101,110,116,45,76,101,110,103,116,104,58,32]

def keepAliveHeader : Text :=
  [13,10,67,111,110,110,101,99,116,105,111,110,58,32,75,101,101,112,45,65,108,105,118,101,13,10]

/-- `Response::stream`; a code that was never set is not to be read. -/
def Response.stream (response : Response) : Option Text :=
  response.code.map fun code =>
    statusPrefix ++ decimal code ++ [SP] ++ response.message ++
    (if response.closeFlag then closeHeader
     else contentLength ++ decimal response.body.length ++ keepAliveHeader) ++
    response.headers.flatMap (fun header => header.1 ++ [COLON,SP] ++ header.2 ++ [CR,LF]) ++
    [CR,LF] ++ response.body

/-- A token that stands for a method: it is long enough, and all of it but its last
byte begins the method's name. -/
structure Names (token : Text) (method : Method) : Prop where
  long : 3 ≤ token.length
  begins : ∃ literal, (method,literal) ∈ methods ∧ token.dropLast <+: literal

section Methods

theorem methods_apart {p q : Method × Text} (hp : p ∈ methods) (hq : q ∈ methods)
    (h : p.2.take 2 = q.2.take 2) : p = q := by
  have hall : ∀ p ∈ methods, ∀ q ∈ methods, p.2.take 2 = q.2.take 2 → p = q := by decide
  exact hall p hp q hq h

theorem methods_long {p : Method × Text} (hp : p ∈ methods) : 2 ≤ p.2.length ∧ (0 : UInt8) ∈ p.2 := by
  have hall : ∀ p ∈ methods, 2 ≤ p.2.length ∧ (0 : UInt8) ∈ p.2 := by decide
  exact hall p hp

theorem Names.dropLast_long {token : Text} (h : 3 ≤ token.length) : 2 ≤ token.dropLast.length := by
  rw [List.length_dropLast]
  omega

theorem Names.unique {token : Text} {method method' : Method} (h : Names token method)
    (h' : Names token method') : method = method' := by
  obtain ⟨hlong,literal,hmem,hpre⟩ := h
  obtain ⟨_,literal',hmem',hpre'⟩ := h'
  have htake := take_eq_take hpre (dropLast_long hlong)
  exact congrArg Prod.fst (methods_apart hmem hmem'
    (htake.symm.trans (take_eq_take hpre' (dropLast_long hlong))))

theorem tryMethods_cases (token : Text) (ms : List (Method × Text)) (request : Request) :
    (∃ method literal, (method,literal) ∈ ms ∧ token <+: literal ∧
      tryMethods token ms request = (.ok true,{ request with method })) ∨
    ((∀ p ∈ ms, ¬token <+: p.2) ∧ tryMethods token ms request = (.ok false,request)) ∨
    (∃ p ∈ ms, p.2 <+: token ∧ p.2 ≠ token ∧ tryMethods token ms request = (.error .undefined,request)) := by
  induction ms with
  | nil => exact .inr (.inl ⟨by simp,rfl⟩)
  | cons p ms ih =>
    obtain ⟨method,literal⟩ := p
    cases hagree : agree token literal with
    | none =>
      obtain ⟨hpre,hne⟩ := agree_none.mp hagree
      exact .inr (.inr ⟨_,List.mem_cons_self,hpre,hne,by simp [tryMethods,hagree]⟩)
    | some hit =>
      cases hit with
      | true =>
        exact .inl ⟨method,literal,List.mem_cons_self,agree_true.mp hagree,by simp [tryMethods,hagree]⟩
      | false =>
        have hnext : tryMethods token ((method,literal) :: ms) = tryMethods token ms := by
          simp [tryMethods,hagree]
        have hnot : ¬token <+: literal := by
          rw [← agree_true,hagree]
          simp
        rw [hnext]
        rcases ih with ⟨m,l,hmem,h⟩ | ⟨hall,h⟩ | ⟨q,hmem,h⟩
        · exact .inl ⟨m,l,List.mem_cons_of_mem _ hmem,h⟩
        · exact .inr (.inl ⟨List.forall_mem_cons.mpr ⟨hnot,hall⟩,h⟩)
        · exact .inr (.inr ⟨q,List.mem_cons_of_mem _ hmem,h⟩)

theorem setMethod_cases (token : Text) (request : Request) :
    (∃ method, Names token method ∧ setMethod token request = (.ok true,{ request with method })) ∨
    ((∀ method, ¬Names token method) ∧ (setMethod token request = (.ok false,request) ∨
      (0 ∈ token ∧ setMethod token request = (.error .undefined,request)))) := by
  by_cases hlong : 3 ≤ token.length
  · have hset : setMethod token = tryMethods token.dropLast methods := if_pos hlong
    rw [hset]
    rcases tryMethods_cases token.dropLast methods request with
      ⟨method,literal,hmem,hpre,he⟩ | ⟨hall,he⟩ | ⟨p,hmem,hpre,hne,he⟩
    · exact .inl ⟨method,⟨hlong,literal,hmem,hpre⟩,he⟩
    · exact .inr ⟨fun method ⟨_,literal,hmem,hpre⟩ => hall _ hmem hpre,.inl he⟩
    · obtain ⟨hlong',hzero⟩ := methods_long hmem
      refine .inr ⟨fun method ⟨_,literal,hmem',hpre'⟩ => hne ?_,
        .inr ⟨List.dropLast_subset _ (hpre.subset hzero),he⟩⟩
      have htake := take_eq_take hpre hlong'
      have heq := methods_apart hmem hmem' (htake.trans (take_eq_take hpre' (Names.dropLast_long hlong)))
      exact hpre.eq_of_length_le (heq ▸ hpre'.length_le)
  · exact .inr ⟨fun method h => hlong h.long,.inl (by simp [setMethod,hlong])⟩

end Methods

end Http
end FluentNet
