import FluentNet.Logger.Stream
import Mathlib.Algebra.GroupWithZero.Nat
import Mathlib.Tactic.FinCases
set_option autoImplicit false

/-!
How a call of the logger becomes a line: its fields are spelt, on the caller's stack
or somewhere else, and copied one behind the other.
-/

namespace FluentNet
namespace Logger
open Cells

inductive Field where
  | int (v : Int)
  | long (v : Int)
  | sizeT (v : Nat)
  | char (c : UInt8)
  | literal (text : List UInt8)
  | cstr (text : List UInt8)
  | string (text : List UInt8)
  | iov (text : List UInt8)
  | ioves (texts : List (List UInt8))
  deriving DecidableEq

def Field.sizeof : Field → Nat
  | .int _ => 4
  | .long _ | .sizeT _ | .cstr _ => 8
  | .char _ => 1
  | .literal text => text.length+1
  | .string _ => 32
  | .iov _ => 16
  | .ioves texts => 16*texts.length

/-- `StreamTraits<T>::size` in `bufcnt(msg...)`. There `msg` has a name, so every `T` is
a reference and none of the specialisations is meant for it. -/
def Field.size (f : Field) : Nat := f.sizeof+10

def bufcnt (fields : List Field) : Nat := (fields.map Field.size).sum

def iovcnt (fields : List Field) : Nat := (fields.map (fun
  | .ioves texts => texts.length
  | _ => 1)).sum

inductive Base where
  | stack (off : Nat)
  | external (bytes : List UInt8)
  deriving DecidableEq

structure IoVector where
  base : Base
  len : Nat
  deriving DecidableEq

structure ResolveContext where
  /-- `local` -/
  stack : Nat → UInt8
  cur : Nat
  ioves : List IoVector
  total : Nat

namespace ResolveContext

def updateExternal (ctx : ResolveContext) (base : Base) (len : Nat) : ResolveContext :=
  { ctx with ioves := ctx.ioves ++ [⟨base,len⟩], total := ctx.total+len }

def updateLocal (ctx : ResolveContext) (len : Nat) : ResolveContext :=
  { ctx.updateExternal (.stack ctx.cur) len with cur := ctx.cur+len }

def calspace (ctx : ResolveContext) : Nat := ctx.total+ctx.ioves.length

end ResolveContext

def IoVector.bytes (stack : Nat → UInt8) (iov : IoVector) : List UInt8 :=
  match iov.base with
  | .stack off => slice stack off iov.len
  | .external bytes => bytes.take iov.len

namespace Resolver

/-- `Stream::parse` to `currentLocal()`, in a buffer of `room` bytes. Nothing where the
code writes outside of it. -/
def resolveLocal (room : Nat) (ctx : ResolveContext) (len : Nat)
    (parse : (Nat → UInt8) → Option (Nat → UInt8)) : Option ResolveContext :=
  if ctx.cur+len ≤ room then (parse ctx.stack).map (fun stack => { ctx with stack }.updateLocal len) else none

def resolveIntegral (room w : Nat) (ctx : ResolveContext) (v : Int) : Option ResolveContext :=
  (Stream.parseLength w v).bind (fun len => resolveLocal room ctx len (Stream.parse w ctx.cur v len))

def resolveText (room : Nat) (ctx : ResolveContext) (text : List UInt8) : Option ResolveContext :=
  resolveLocal room ctx text.length (fun stack => some (fill stack ctx.cur text))

/-- `IoVector{Cache::bufs[msg], Cache::len[msg]}` -/
def resolveCached (ctx : ResolveContext) (v : Int) : Option ResolveContext :=
  (Meta.numericMetaString v).map (fun buf => ctx.updateExternal (.external buf) (Meta.length v))

def limit : Nat := 10000

def resolveDispatch (room : Nat) (ctx : ResolveContext) : Field → Option ResolveContext
  | .int v => if v > 0 ∧ v < limit then resolveCached ctx v else resolveIntegral room 32 ctx v
  | .long v => resolveIntegral room 64 ctx v
  | .sizeT v => if v < limit then resolveCached ctx v else resolveIntegral room 64 ctx v
  | .char c => resolveText room ctx [c]
  | .literal text => some (ctx.updateExternal (.external (text ++ [0])) text.length)
  | .cstr text | .string text => resolveText room ctx text
  | .iov text => some (ctx.updateExternal (.external text) text.length)
  | .ioves texts => some (texts.foldl (fun ctx text => ctx.updateExternal (.external text) text.length) ctx)

def resolve (room : Nat) (ctx : ResolveContext) : List Field → Option ResolveContext
  | [] => some ctx
  | msg :: others => (resolveDispatch room ctx msg).bind (fun ctx => resolve room ctx others)

def putLoop (stack : Nat → UInt8) : List IoVector → Nat → (Nat → UInt8) → Nat → UInt8
  | [], _, buf => buf
  | iov :: ioves, offset, buf =>
      let copied := fill buf offset (iov.bytes stack)
      let last := offset+iov.len
      putLoop stack ioves (last+1) (Function.update copied last (if ioves.isEmpty then 10 else 32))

def put (ctx : ResolveContext) (buf : Nat → UInt8) (base : Nat) : Nat → UInt8 :=
  putLoop ctx.stack ctx.ioves base buf

end Resolver

/-- `LogBaseImpl::log`, up to the call of `apply`. -/
def log (stack : Nat → UInt8) (fields : List Field) : Option ResolveContext :=
  Resolver.resolve (bufcnt fields) ⟨stack,0,[],0⟩ fields

def Field.texts : Field → List (List UInt8)
  | .int v | .long v => [spelling v]
  | .sizeT v => [spelling v]
  | .char c => [[c]]
  | .literal text | .cstr text | .string text | .iov text => [text]
  | .ioves texts => texts

/-- How much of it is spelt on the caller's stack. -/
def Field.needs : Field → Nat
  | .int v => if v > 0 ∧ v < Resolver.limit then 0 else (spelling v).length
  | .long v => (spelling v).length
  | .sizeT v => if v < Resolver.limit then 0 else (spelling v).length
  | .char _ => 1
  | .cstr text | .string text => text.length
  | .literal _ | .iov _ | .ioves _ => 0

/-- A number of the field's type, but not the least one, which cannot be negated. -/
def Field.Proper : Field → Prop
  | .int v => -(2^31) < v ∧ v < 2^31
  | .long v => -(2^63) < v ∧ v < 2^63
  | .sizeT v => v < 2^64
  | _ => True

/-- The line that is logged: blanks between the fields, and a line break behind the last. -/
def lineOf : List (List UInt8) → List UInt8
  | [] => []
  | [text] => text ++ [10]
  | text :: texts => text ++ 32 :: lineOf texts

section Putting
variable {stack : Nat → UInt8}

theorem lineOf_cons (text : List UInt8) (texts : List (List UInt8)) :
    lineOf (text :: texts) = text ++ (if texts.isEmpty then 10 else 32) :: lineOf texts := by
  cases texts <;> rfl

theorem lineOf_length (texts : List (List UInt8)) :
    (lineOf texts).length = (texts.map List.length).sum+texts.length := by
  induction texts with
  | nil => rfl
  | cons text texts ih =>
    rw [lineOf_cons,List.length_append,List.length_cons,ih,List.map_cons,List.sum_cons,List.length_cons]
    omega

theorem putLoop_line {ioves : List IoVector} (hlen : ∀ iov ∈ ioves, (iov.bytes stack).length = iov.len)
    (offset : Nat) (buf : Nat → UInt8) :
    slice (Resolver.putLoop stack ioves offset buf) offset (lineOf (ioves.map (IoVector.bytes stack))).length =
      lineOf (ioves.map (IoVector.bytes stack)) ∧
    ∀ i, i < offset ∨ offset+(lineOf (ioves.map (IoVector.bytes stack))).length ≤ i →
      Resolver.putLoop stack ioves offset buf i = buf i := by
  induction ioves generalizing offset buf with
  | nil => exact ⟨rfl,fun _ _ => rfl⟩
  | cons iov ioves ih =>
    have hiov := hlen iov List.mem_cons_self
    have hlast : ∀ c : UInt8, slice (Function.update (fill buf offset (iov.bytes stack)) (offset+iov.len) c) offset
        (iov.len+1) = iov.bytes stack ++ [c] := by
      intro c
      rw [slice_add,slice_update (.inr (Nat.le_refl _)),← hiov,slice_fill]
      simp [slice]
    obtain ⟨hslice,hother⟩ := ih (fun v hv => hlen v (List.mem_cons_of_mem _ hv)) (offset+iov.len+1)
      (Function.update (fill buf offset (iov.bytes stack)) (offset+iov.len) (if ioves.isEmpty then 10 else 32))
    have hlength : (lineOf ((iov :: ioves).map (IoVector.bytes stack))).length =
        iov.len+1+(lineOf (ioves.map (IoVector.bytes stack))).length := by
      rw [List.map_cons,lineOf_cons,List.length_append,List.length_cons,hiov]
      omega
    refine ⟨?_,fun i hi => ?_⟩
    · -- the rest does not touch what has been copied
      have hkept : slice (Resolver.putLoop stack (iov :: ioves) offset buf) offset (iov.len+1) =
          iov.bytes stack ++ [if ioves.isEmpty then 10 else 32] :=
        (slice_congr (fun k hk => hother _ (.inl (by omega)))).trans (hlast _)
      rw [hlength,slice_add,hkept,List.map_cons,lineOf_cons]
      have hrest : slice (Resolver.putLoop stack (iov :: ioves) offset buf) (offset+(iov.len+1))
          (lineOf (ioves.map (IoVector.bytes stack))).length = lineOf (ioves.map (IoVector.bytes stack)) := hslice
      rw [hrest,List.append_assoc]
      simp
    · rw [hlength] at hi
      refine (hother i (by omega)).trans ((Function.update_of_ne (by omega) _ _).trans (fill_other ?_))
      omega

end Putting

section Resolving
variable {room : Nat} {ctx : ResolveContext} {texts : List (List UInt8)}

structure Says (ctx : ResolveContext) (texts : List (List UInt8)) : Prop where
  said : ctx.ioves.map (IoVector.bytes ctx.stack) = texts
  lengths : ∀ iov ∈ ctx.ioves, (iov.bytes ctx.stack).length = iov.len
  below : ∀ iov ∈ ctx.ioves, ∀ off, iov.base = .stack off → off+iov.len ≤ ctx.cur
  total : ctx.total = (texts.map List.length).sum

theorem Says.updateExternal (h : Says ctx texts) {bytes text : List UInt8} (hbytes : bytes.take text.length = text) :
    Says (ctx.updateExternal (.external bytes) text.length) (texts ++ [text]) := by
  refine ⟨?_,fun iov hiov => ?_,fun iov hiov off hoff => ?_,?_⟩
  · simp only [ResolveContext.updateExternal,List.map_append,List.map_cons,List.map_nil,h.said,IoVector.bytes,hbytes]
  · rcases List.mem_append.mp hiov with hold | hnew
    · exact h.lengths iov hold
    · cases List.mem_singleton.mp hnew
      exact congrArg List.length hbytes
  · rcases List.mem_append.mp hiov with hold | hnew
    · exact h.below iov hold off hoff
    · cases List.mem_singleton.mp hnew
      cases hoff
  · simp only [ResolveContext.updateExternal,h.total,List.map_append,List.map_cons,List.map_nil,List.sum_append,
      List.sum_singleton]

/-- A field that is spelt on the stack, where there is room for it. -/
theorem Says.resolveLocal (h : Says ctx texts) {text : List UInt8} {parse : (Nat → UInt8) → Option (Nat → UInt8)}
    (hparse : ∃ out, parse ctx.stack = some out ∧ slice out ctx.cur text.length = text ∧
      ∀ i, i < ctx.cur → out i = ctx.stack i) (hroom : ctx.cur+text.length ≤ room) :
    ∃ u, Resolver.resolveLocal room ctx text.length parse = some u ∧ Says u (texts ++ [text]) ∧
      u.cur = ctx.cur+text.length ∧ u.ioves.length = ctx.ioves.length+1 := by
  obtain ⟨out,hout,hslice,hother⟩ := hparse
  -- the vectors there are lie below
  have hsame : ∀ iov ∈ ctx.ioves, iov.bytes out = iov.bytes ctx.stack := by
    intro iov hiov
    obtain ⟨base,len⟩ := iov
    cases base with
    | external bytes => rfl
    | stack off =>
      have hbelow : off+len ≤ ctx.cur := h.below _ hiov off rfl
      refine slice_congr (fun k hk => hother _ ?_)
      have hlt : k < len := hk
      omega
  let written : ResolveContext := { ctx with stack := out }
  refine ⟨written.updateLocal text.length,?_,⟨?_,fun iov hiov => ?_,fun iov hiov off hoff => ?_,?_⟩,
    rfl,?_⟩
  · rw [Resolver.resolveLocal,if_pos hroom,hout,Option.map_some]
  · have hnew : IoVector.bytes out ⟨.stack ctx.cur,text.length⟩ = text := hslice
    change (ctx.ioves ++ [IoVector.mk (.stack ctx.cur) text.length]).map (IoVector.bytes out) = _
    rw [List.map_append,List.map_congr_left hsame,h.said,List.map_cons,hnew,List.map_nil]
  · change (iov.bytes out).length = iov.len
    rcases List.mem_append.mp hiov with hold | hnew
    · rw [hsame iov hold]
      exact h.lengths iov hold
    · cases List.mem_singleton.mp hnew
      exact slice_length
  · change off+iov.len ≤ ctx.cur+text.length
    rcases List.mem_append.mp hiov with hold | hnew
    · have hbelow := h.below iov hold off hoff
      omega
    · cases List.mem_singleton.mp hnew
      cases hoff
      exact Nat.le_refl _
  · change ctx.total+text.length = _
    rw [h.total,List.map_append,List.sum_append,List.map_cons,List.map_nil,List.sum_singleton]
  · change (ctx.ioves ++ [_]).length = _
    rw [List.length_append,List.length_singleton]

structure Resolves (room : Nat) (ctx : ResolveContext) (texts : List (List UInt8)) (more : List (List UInt8))
    (needs : Nat) (result : Option ResolveContext) : Prop where
  fits : ctx.cur+needs ≤ room → ∃ u, result = some u ∧ Says u (texts ++ more) ∧ u.cur = ctx.cur+needs ∧
    u.ioves.length = ctx.ioves.length+more.length
  full : room < ctx.cur+needs → result = none

theorem Says.resolveText (h : Says ctx texts) (text : List UInt8) :
    Resolves room ctx texts [text] text.length (Resolver.resolveText room ctx text) := by
  refine ⟨fun hroom => h.resolveLocal ⟨_,rfl,slice_fill,fun i hi => fill_other (.inl hi)⟩ hroom,fun hfull => ?_⟩
  rw [Resolver.resolveText,Resolver.resolveLocal,if_neg (Nat.not_le.mpr hfull)]

theorem Says.resolveIntegral (h : Says ctx texts) {w : Nat} {v : Int} (hv : -(2^(w-1)) < v) :
    Resolves room ctx texts [spelling v] (spelling v).length (Resolver.resolveIntegral room w ctx v) := by
  obtain ⟨hlength,out,hout,hslice,hother⟩ := Stream.parse_spelling ctx.cur hv ctx.stack
  rw [Resolver.resolveIntegral,hlength,Option.bind_some]
  refine ⟨fun hroom => h.resolveLocal ⟨out,hout,hslice,fun i hi => hother i (.inl hi)⟩ hroom,fun hfull => ?_⟩
  rw [Resolver.resolveLocal,if_neg (Nat.not_le.mpr hfull)]

theorem Says.resolveExternal (h : Says ctx texts) (hcur : ctx.cur ≤ room) {bytes text : List UInt8}
    (hbytes : bytes.take text.length = text) :
    Resolves room ctx texts [text] 0 (some (ctx.updateExternal (.external bytes) text.length)) := by
  refine ⟨fun _ => ⟨_,rfl,h.updateExternal hbytes,rfl,?_⟩,fun hfull => by omega⟩
  simp [ResolveContext.updateExternal]

/-- The table and the loop say the same. -/
theorem Says.resolveCached (h : Says ctx texts) (hcur : ctx.cur ≤ room) (v : Int) :
    Resolves room ctx texts [spelling v] 0 (Resolver.resolveCached ctx v) := by
  rw [Resolver.resolveCached,Meta.numericMetaString_spelling,Option.map_some,Meta.length_eq]
  exact h.resolveExternal hcur (by simp)

theorem Says.resolveIoves (h : Says ctx texts) (hcur : ctx.cur ≤ room) (more : List (List UInt8)) :
    Resolves room ctx texts more 0
      (some (more.foldl (fun ctx text => ctx.updateExternal (.external text) text.length) ctx)) := by
  have hall : ∀ (more texts : List (List UInt8)) (ctx : ResolveContext), Says ctx texts →
      let u := more.foldl (fun ctx text => ctx.updateExternal (.external text) text.length) ctx
      Says u (texts ++ more) ∧ u.cur = ctx.cur ∧ u.ioves.length = ctx.ioves.length+more.length := by
    intro more
    induction more with
    | nil => exact fun texts ctx h => ⟨by simpa using h,rfl,rfl⟩
    | cons text more ih =>
      intro texts ctx h
      obtain ⟨hsaid,hcur,hcount⟩ := ih _ _ (h.updateExternal (List.take_length (l := text)))
      refine ⟨by simpa using hsaid,hcur,hcount.trans ?_⟩
      simp [ResolveContext.updateExternal]
      omega
  obtain ⟨hsaid,hsame,hcount⟩ := hall more texts ctx h
  exact ⟨fun _ => ⟨_,rfl,hsaid,hsame,hcount⟩,fun hfull => by omega⟩

theorem Says.resolveDispatch (h : Says ctx texts) (hcur : ctx.cur ≤ room) {f : Field} (hf : f.Proper) :
    Resolves room ctx texts f.texts f.needs (Resolver.resolveDispatch room ctx f) := by
  cases f with
  | int v =>
    unfold Resolver.resolveDispatch Field.needs
    dsimp only
    split
    · exact h.resolveCached hcur v
    · exact h.resolveIntegral hf.1
  | long v => exact h.resolveIntegral hf.1
  | sizeT v =>
    unfold Resolver.resolveDispatch Field.needs
    dsimp only
    split
    · exact h.resolveCached hcur v
    · exact h.resolveIntegral (by omega)
  | char c => exact h.resolveText [c]
  | literal text => exact h.resolveExternal hcur (by simp)
  | cstr text => exact h.resolveText text
  | string text => exact h.resolveText text
  | iov text => exact h.resolveExternal hcur List.take_length
  | ioves more => exact h.resolveIoves hcur more

theorem Says.resolve (h : Says ctx texts) (hcur : ctx.cur ≤ room) {fields : List Field}
    (hf : ∀ f ∈ fields, f.Proper) :
    Resolves room ctx texts (fields.flatMap Field.texts) (fields.map Field.needs).sum
      (Resolver.resolve room ctx fields) := by
  induction fields generalizing ctx texts with
  | nil => exact ⟨fun _ => ⟨ctx,rfl,by simpa using h,rfl,rfl⟩,fun hfull => by simp at hfull; omega⟩
  | cons f fields ih =>
    have hfirst := h.resolveDispatch hcur (hf f List.mem_cons_self)
    have hrest : ∀ g ∈ fields, g.Proper := fun g hg => hf g (List.mem_cons_of_mem _ hg)
    rw [List.map_cons,List.sum_cons,List.flatMap_cons]
    by_cases hroom : ctx.cur+f.needs ≤ room
    · obtain ⟨u,hu,hsaid,hucur,hcount⟩ := hfirst.fits hroom
      have hnext := ih hsaid (hucur ▸ hroom) hrest
      refine ⟨fun hall => ?_,fun hfull => ?_⟩
      · obtain ⟨t,ht,htsaid,htcur,htcount⟩ := hnext.fits (by omega)
        refine ⟨t,?_,by rwa [← List.append_assoc],by omega,by rw [List.length_append]; omega⟩
        rw [Resolver.resolve,hu]
        exact ht
      · rw [Resolver.resolve,hu]
        exact hnext.full (by omega)
    · refine ⟨fun hall => by omega,fun _ => ?_⟩
      rw [Resolver.resolve,hfirst.full (by omega)]
      rfl

end Resolving

section Lines
variable {stack : Nat → UInt8} {fields : List Field}

def saysOf (fields : List Field) : List (List UInt8) := fields.flatMap Field.texts
def needsOf (fields : List Field) : Nat := (fields.map Field.needs).sum

theorem saysOf_length (fields : List Field) : (saysOf fields).length = iovcnt fields := by
  induction fields with
  | nil => rfl
  | cons f fields ih =>
    have hfirst : f.texts.length = match f with
        | .ioves texts => texts.length
        | _ => 1 := by
      cases f <;> rfl
    rw [saysOf,List.flatMap_cons,List.length_append,hfirst]
    change _+(saysOf fields).length = _
    rw [ih,iovcnt,iovcnt,List.map_cons,List.sum_cons]

theorem log_fits (hf : ∀ f ∈ fields, f.Proper) (hroom : needsOf fields ≤ bufcnt fields) :
    ∃ ctx, log stack fields = some ctx ∧ ctx.ioves.length = iovcnt fields ∧
      ctx.calspace = (lineOf (saysOf fields)).length ∧
      ∀ buf base, slice (Resolver.put ctx buf base) base ctx.calspace = lineOf (saysOf fields) ∧
        ∀ i, i < base ∨ base+ctx.calspace ≤ i → Resolver.put ctx buf base i = buf i := by
  have hempty : Says ⟨stack,0,[],0⟩ [] := ⟨rfl,by simp,by simp,rfl⟩
  have hall := hempty.resolve (Nat.zero_le (bufcnt fields)) hf
  obtain ⟨ctx,hctx,hsaid,_,hcount⟩ := hall.fits ((Nat.zero_add _).symm ▸ hroom)
  have hioves : ctx.ioves.length = iovcnt fields := by
    rw [hcount,← saysOf_length]
    exact Nat.zero_add _
  have hspace : ctx.calspace = (lineOf (saysOf fields)).length := by
    rw [ResolveContext.calspace,hsaid.total,lineOf_length,hioves,saysOf_length]
    rfl
  refine ⟨ctx,hctx,hioves,hspace,fun buf base => ?_⟩
  have hput := putLoop_line hsaid.lengths base buf
  rw [hsaid.said] at hput
  rw [hspace]
  exact hput

end Lines

end Logger
end FluentNet
