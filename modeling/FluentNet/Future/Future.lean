import FluentNet.Library.Runs
import Mathlib.Logic.Function.Basic
set_option autoImplicit false

/-!
Chains of futures on one looper. The values of a chain may differ in type from
stage to stage; the block at position `k` is the one that stage `k` is attached to.
-/

namespace FluentNet
namespace Future
open Runs

inductive State where
  | new | ready | posted | done | dead | cancel
  deriving DecidableEq, Repr

/-- What is attached to a future of `α` and gives one of `β`: `then`, `poll`,
`poll(count)` or `cancelIf`. The last three forward the value, whose type does not
change. A poll predicate sees how often it has been called. -/
inductive Stage (α β : Type) where
  | andThen (f : α → β)
  | poll (same : α = β) (f : α → Nat → Bool)
  | pollCount (same : α = β) (count : Nat) (f : α → Nat → Bool)
  | cancelIf (same : α = β) (f : α → Bool)

structure Chain where
  T : Nat → Type
  length : Nat
  stage : (k : Nat) → Stage (T k) (T (k+1))

structure Call (c : Chain) where
  stage : Nat
  value : c.T stage

/-- `_then` is empty, or the callback of a stage with the promise of the next block. -/
structure ControlBlock (α β : Type) where
  state : State
  value : Option α
  continuation : Option (Stage α β)

def ControlBlock.init {α β : Type} : ControlBlock α β := ⟨.new,none,none⟩

/-- A posted request: the block that it runs the callback of, and how often the
predicate of a poll has been called so far. -/
structure Coroutine where
  block : Nat
  calls : Nat
  deriving DecidableEq, Repr

inductive Resumed (β : Type) where
  | yielded
  | canceled
  | set (value : β)

/-- The callbacks that the stages pass to `futureRoutine`, from one `resume()` to
the next `yield()` or the end: whether the functor is called, and what comes of it. -/
def Stage.resume {α β : Type} : Stage α β → α → Nat → Bool × Resumed β
  | .andThen f, value, _ => (true,.set (f value))
  | .poll same f, value, calls =>
      -- while(!f(value)) yield()
      if !f value calls then (true,.yielded) else (true,.set (cast same value))
  | .pollCount same count f, value, calls =>
      -- while(count-- && !f(value)) yield()
      if count-calls = 0 then (false,.set (cast same value))
      else if !f value calls then (true,.yielded)
      else (true,.set (cast same value))
  | .cancelIf same f, value, _ =>
      if f value then (true,.canceled) else (true,.set (cast same value))

structure Machine (c : Chain) where
  blocks : (k : Nat) → ControlBlock (c.T k) (c.T (k+1))
  attached : Nat
  queue : List Coroutine
  trace : List (Call c)

namespace Machine
variable {c : Chain}

def init (c : Chain) : Machine c := ⟨fun _ => .init,0,[],[]⟩

def setBlock (s : Machine c) (k : Nat) (block : ControlBlock (c.T k) (c.T (k+1))) : Machine c :=
  { s with blocks := Function.update s.blocks k block }

def setState (s : Machine c) (k : Nat) (state : State) : Machine c :=
  s.setBlock k { s.blocks k with state }

def post (s : Machine c) (co : Coroutine) : Machine c := { s with queue := s.queue ++ [co] }

/-- `postRequest`, which `Promise` and `Future` have alike -/
def postRequest (s : Machine c) (k : Nat) : Machine c := (s.setState k .posted).post ⟨k,0⟩

/-- `Promise::setValue` on the promise of block `k`; nothing when it throws. -/
def setValue (s : Machine c) (k : Nat) (value : c.T k) : Option (Machine c) :=
  match (s.blocks k).state with
  | .new =>
      let s' := s.setBlock k { s.blocks k with state := .ready, value := some value }
      some (if (s.blocks k).continuation.isSome then s'.postRequest k else s')
  | .cancel => some s
  | _ => none

def cancel (s : Machine c) (k : Nat) : Machine c := s.setState k .cancel

def futureRoutine (s : Machine c) (k : Nat) : Machine c :=
  let s := s.setBlock (k+1) .init
  match (s.blocks k).state with
  | .new => s.setBlock k { s.blocks k with continuation := some (c.stage k) }
  | .ready => (s.setBlock k { s.blocks k with continuation := some (c.stage k) }).postRequest k
  | .cancel => s.cancel (k+1)
  | _ => s

def attach (s : Machine c) : Machine c :=
  { s.futureRoutine s.attached with attached := s.attached+1 }

/-- `co->resume()`, and the coroutine is queued again unless it has returned. An
empty `_then` or a value that was never set is not to be run. -/
def resume (s : Machine c) (co : Coroutine) : Option (Machine c) := do
  let stage ← (s.blocks co.block).continuation
  let value ← (s.blocks co.block).value
  let (invoked,resumed) := stage.resume value co.calls
  let s := if invoked then { s with trace := s.trace ++ [⟨co.block,value⟩] } else s
  match resumed with
  | .yielded => some (s.post { co with calls := co.calls+1 })
  | .canceled => some ((s.cancel (co.block+1)).setState co.block .done)
  | .set next => do
      let s ← s.setValue (co.block+1) next
      some (s.setState co.block .done)

/-- Undefined on an empty queue. -/
def loopOnceUnchecked (s : Machine c) : Option (Machine c) :=
  match s.queue with
  | [] => none
  | co :: rest => resume { s with queue := rest } co

def times (action : Machine c → Option (Machine c)) : Nat → Machine c → Option (Machine c)
  | 0, s => some s
  | n+1, s => do times action n (← action s)

def unroll4x (s : Machine c) : Option (Machine c) :=
  let width := s.queue.length
  times (times loopOnceUnchecked 4) (width/4) s >>=
    (fun s => if width/2%2 = 1 then times loopOnceUnchecked 2 s else some s) >>=
    (fun s => if width%2 = 1 then s.loopOnceUnchecked else some s)

def loop (s : Machine c) : Option (Machine c) := s.unroll4x

inductive Label where
  | attach | setValue | loop
  deriving DecidableEq, Repr

def step (value : c.T 0) (s : Machine c) : Label → Option (Machine c)
  | .attach =>
      if s.attached < c.length then some s.attach else none
  | .setValue => s.setValue 0 value
  | .loop => s.loop

end Machine

end Future
end FluentNet
