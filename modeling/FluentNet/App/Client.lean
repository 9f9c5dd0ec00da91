import FluentNet.App.Server
import FluentNet.Network.Connector
set_option autoImplicit false

/-!
A client: its pool, and the queue of its looper. `batch()` handles events and then
resumes each task that is queued by then once.
-/

namespace FluentNet
open Throwing Runs

/-- What waits in the looper's `_mq`. `α` is `InetAddress`. -/
inductive Task (α : Type) where
  /-- the next stage of `connect`, of which the last makes the context -/
  | connect (request : Connector.Request α)
  /-- the poll of `shutdown`, and the pair whose context it has a pointer to -/
  | shutdownPoll (bundle : Bundle) (serial : Nat)
  /-- a task that the application has posted -/
  | user
  deriving DecidableEq, Repr

def Task.shutdownPoll? {α : Type} : Task α → Option (Bundle × Nat)
  | .shutdownPoll bundle serial => some (bundle,serial)
  | _ => none

inductive ClientPhase where
  | handle
  /-- in `Looper::loop`, with so many tasks of this pass left -/
  | loop (left : Nat)
  deriving DecidableEq, Repr

structure Client (α : Type) where
  handler : Handler
  token : Token
  connections : Store
  /-- how many pairs have been at an address -/
  born : Bundle → Nat
  eventBuffer : List (Bundle × EventBitmap)
  /-- the looper's `_mq` -/
  mq : List (Task α)
  phase : ClientPhase
  /-- the polls that were resumed when their context was gone -/
  stale : List (Bundle × Nat)

/-- What happens while a task runs: the results of a request's system calls, the
address of a new pair and what its connect callback does, and whether a task of the
application yields. -/
structure TaskEnv where
  answer : Connector.Answer
  fresh : Bundle
  ctl : CtlAnswer
  callback : Callback
  yields : Bool
  deriving DecidableEq, Repr

def Context.ensureLifecycle (s : Conn) : Conn := { s with lifecycle := some (s.lifecycle.getD 1) }

namespace Client
variable {α : Type}

def init (handler : Handler) (token : Token) : Client α where
  handler
  token
  connections := .init
  born := fun _ => 0
  eventBuffer := []
  mq := []
  phase := .loop 0
  stale := []

def post (s : Client α) (task : Task α) : Client α := { s with mq := s.mq ++ [task] }

/-- The pair that a poll was posted for, if it is still there. -/
def find (s : Client α) (poll : Bundle × Nat) : Option BundleValue :=
  if s.born poll.1 = poll.2 then s.connections.heap poll.1 else none

/-- A context after some code has run on it. The polls that it posted are at the back
of the queue. -/
def withContext (s : Client α) (bundle : Bundle) (value : BundleValue) (context : Conn) : Client α :=
  { s with
    connections := { s.connections with
      heap := s.connections.heap.set bundle (some { value with context := { context with deferred := 0 } }) }
    mq := s.mq ++ List.replicate context.deferred (.shutdownPoll bundle (s.born bundle)) }

def emplace (s : Client α) (fresh : Bundle) : Option (Client α) := do
  let connections ← s.connections.emplace s.token fresh
  some { s with connections, born := fun b => if b = fresh then s.born b+1 else s.born b }

/-- The continuation that `BaseClient::connect` puts after the connector's. -/
def connected (s : Client α) (env : TaskEnv) : Option (Client α) :=
  match s.connections.heap env.fresh with
  | some _ => none
  | none => do
      let s ← s.emplace env.fresh
      let value ← s.connections.heap env.fresh
      let context := (s.handler.handleNewContext env.ctl env.callback value.context).2
      some (s.withContext env.fresh value (Context.ensureLifecycle context))

/-- One stage of the connector's. A request that is canceled has no further task. -/
def connecting (s : Client α) (request : Connector.Request α) (env : TaskEnv) : Client α :=
  match request.step env.answer with
  | none => s
  | some request =>
      match request.stage with
      | .canceled => s
      | _ => s.post (.connect request)

def resume (s : Client α) (env : TaskEnv) : Task α → Option (Client α)
  | .connect request =>
      match request.stage with
      | .delivered _ _ => s.connected env
      | _ => some (s.connecting request env)
  | .shutdownPoll bundle serial =>
      match s.find (bundle,serial) with
      | some value => some (s.withContext bundle value (Context.runPoll value.context).2)
      | none => some { s with stale := s.stale ++ [(bundle,serial)] }
  | .user => some (if env.yields then s.post .user else s)

inductive Label (α : Type) where
  /-- the application calls `connect`; `::connect` has this result -/
  | connect (address : α) (err : Nat)
  | post
  | user (bundle : Bundle) (act : UserAct)
  /-- the swap of `handleEvents`; every event is for a context that is there -/
  | swap (events : List (Bundle × EventBitmap))
  | handleEvent (env : EventEnv)
  | loop
  | loopOnce (env : TaskEnv)

def step (s : Client α) : Label α → Option (Client α)
  | .connect address err => some (s.post (.connect (Connector.connect address err)))
  | .post => some (s.post .user)
  | .user bundle act => do
      let value ← s.connections.heap bundle
      some (s.withContext bundle value (act.exec value.context))
  | .swap events =>
      if s.phase = .loop 0 ∧ ∀ e ∈ events, (s.connections.heap e.1).isSome then
        some { s with eventBuffer := events, phase := .handle }
      else none
  | .handleEvent env =>
      match s.phase, s.eventBuffer with
      | .handle, e :: rest => do
          let value ← s.connections.heap e.1
          let s := { s with eventBuffer := rest }
          some (s.withContext e.1 value (s.handler.dispatch e.2 env value.context).2)
      | _, _ => none
  | .loop =>
      if s.phase = .handle ∧ s.eventBuffer = [] then some { s with phase := .loop s.mq.length } else none
  | .loopOnce env =>
      match s.phase, s.mq with
      | .loop (left+1), task :: rest => { s with mq := rest, phase := .loop left }.resume env task
      | _, _ => none

def polls (s : Client α) : List (Bundle × Nat) := s.mq.filterMap Task.shutdownPoll?

def emplacing (s : Client α) : Bool :=
  match s.mq with
  | .connect ⟨_,.delivered _ _,_,_⟩ :: _ => true
  | _ => false

end Client

end FluentNet
