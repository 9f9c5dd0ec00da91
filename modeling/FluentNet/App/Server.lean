import FluentNet.Handler.Handler
import FluentNet.Network.Multiplexer
set_option autoImplicit false

/-!
Servers that share a multiplexer, and the thread that polls it. A server runs
`batch()` again and again; a step is what no other thread can see the middle of.
-/

namespace FluentNet
open Throwing Runs

inductive BatchPhase where
  | accept
  /-- between `emplace` and `handleNewContext` -/
  | newContext (bundle : Bundle)
  /-- before the locked swap of `handleEvents` -/
  | swap
  /-- in the loop of `handleEvents`, or past it -/
  | handle
  deriving DecidableEq, Repr

structure Server where
  handler : Handler
  token : Token
  connections : Store
  /-- `_eventBuffer` without the events that have been handled -/
  eventBuffer : List EpollEvent
  phase : BatchPhase

structure ServerGroup where
  multiplexer : Multiplexer
  servers : List Server
  /-- how many pairs have been at an address -/
  born : Bundle → Nat
  /-- the events whose bundle was dereferenced when its pair was gone -/
  stale : List EpollEvent

inductive UserAct where
  | call (c : UserCall)
  /-- `ensureLifecycle()`, or a strong holder more or less -/
  | lifecycle (useCount : Option Nat)
  deriving DecidableEq, Repr

def UserAct.exec : UserAct → Conn → Conn
  | .call c, s => (c.exec s).2
  | .lifecycle useCount, s => { s with lifecycle := useCount }

namespace Server

def init (handler : Handler) (token : Token) : Server where
  handler
  token
  connections := .init
  eventBuffer := []
  phase := .accept

/-- The pair that an event was reported for, if it is still there. -/
def find (v : Server) (born : Bundle → Nat) (e : EpollEvent) : Option BundleValue :=
  if born e.bundle = e.serial then v.connections.heap e.bundle else none

def take (v : Server) (events : List EpollEvent) : Server :=
  { v with eventBuffer := events, phase := .handle }

def withContext (v : Server) (bundle : Bundle) (value : BundleValue) (context : Conn) : Server :=
  { v with connections := { v.connections with
      heap := v.connections.heap.set bundle (some { value with context }) } }

def loop (v : Server) : Server :=
  { v with
    connections := { v.connections with
      heap := fun b => (v.connections.heap b).map (fun value =>
        { value with context := (Context.loopPass value.context).2 }) }
    phase := .accept }

end Server

namespace ServerGroup

def init : ServerGroup := ⟨.init,[],fun _ => 0,[]⟩

def put (g : ServerGroup) (v : Server) : ServerGroup := { g with servers := g.servers.set v.token v }

def find (g : ServerGroup) (e : EpollEvent) : Option BundleValue :=
  g.servers.findSome? (fun v => v.find g.born e)

def Free (g : ServerGroup) (bundle : Bundle) : Prop :=
  ∀ v ∈ g.servers, v.connections.heap bundle = none

instance (g : ServerGroup) (bundle : Bundle) : Decidable (g.Free bundle) :=
  inferInstanceAs (Decidable (∀ v ∈ g.servers, _))

def dispatchEvent (g : ServerGroup) (e : EpollEvent) : ServerGroup :=
  match g.find e with
  | some value => { g with multiplexer := g.multiplexer.push value.token e }
  | none => { g with stale := g.stale ++ [e] }

/-- `dispatchActiveContext` on the events of the last `epoll_wait` -/
def dispatchActiveContext (g : ServerGroup) : ServerGroup :=
  g.multiplexer.events.foldl dispatchEvent { g with multiplexer.events := [] }

/-- What `epoll_wait` may return: fds that are registered, each once at most, and
as many as `_events` has room for. It is level-triggered: what was reported before does not matter. -/
def Reports (g : ServerGroup) (ready : List (Bundle × EventBitmap)) : Prop :=
  ready.length ≤ Multiplexer.EVENTS ∧ (ready.map Prod.fst).Nodup ∧
    ∀ p ∈ ready, ∃ v ∈ g.servers, ∃ value ∈ v.connections.heap p.1, value.context.reported p.2 = true

instance (g : ServerGroup) (ready : List (Bundle × EventBitmap)) : Decidable (g.Reports ready) :=
  inferInstanceAs (Decidable (_ ∧ _ ∧ ∀ p ∈ ready, ∃ v ∈ g.servers,
    ∃ value ∈ v.connections.heap p.1, _))

def emplace (g : ServerGroup) (v : Server) (fresh : Bundle) : Option ServerGroup := do
  let connections ← v.connections.emplace v.token fresh
  let g' := g.put { v with connections, phase := .newContext fresh }
  some { g' with born := fun b => if b = fresh then g.born b+1 else g.born b }

def handleEvent (g : ServerGroup) (v : Server) (env : EventEnv) : Option ServerGroup :=
  match v.eventBuffer with
  | [] => none
  | e :: rest =>
      let v' := v.take rest
      match v.find g.born e with
      | some value =>
          let context := (v.handler.dispatch e.events env value.context).2
          some (g.put (v'.withContext e.bundle value context))
      | none => some { g.put v' with stale := g.stale ++ [e] }

inductive Label where
  | server (handler : Handler)
  | epollWait (ready : List (Bundle × EventBitmap))
  | dispatch
  /-- nothing to accept, or a connection and the address that its pair gets -/
  | accept (token : Token) (fresh : Option Bundle)
  | newContext (token : Token) (ctl : CtlAnswer) (cb : Callback)
  | swap (token : Token)
  | handleEvent (token : Token) (env : EventEnv)
  | loop (token : Token)
  | user (token : Token) (bundle : Bundle) (act : UserAct)

def step (g : ServerGroup) : Label → Option ServerGroup
  | .server handler =>
      let (token,multiplexer) := g.multiplexer.newToken
      some { g with multiplexer, servers := g.servers ++ [.init handler token] }
  | .epollWait ready =>
      if g.multiplexer.events = [] ∧ g.Reports ready then
        let events := ready.map (fun p => ⟨p.1,p.2,g.born p.1⟩)
        some { g with multiplexer.events := events }
      else none
  | .dispatch => some g.dispatchActiveContext
  | .accept token fresh => do
      let v ← g.servers[token]?
      if v.phase = .accept then
        match fresh with
        | none => some (g.put { v with phase := .swap })
        | some bundle => if g.Free bundle then g.emplace v bundle else none
      else none
  | .newContext token ctl cb => do
      let v ← g.servers[token]?
      match v.phase with
      | .newContext bundle => do
          let value ← v.connections.heap bundle
          let context := (v.handler.handleNewContext ctl cb value.context).2
          some (g.put { v.withContext bundle value context with phase := .swap })
      | _ => none
  | .swap token => do
      let v ← g.servers[token]?
      if v.phase = .swap then
        let g' := g.put (v.take (g.multiplexer.visit token))
        some { g' with multiplexer := g.multiplexer.leave token v.eventBuffer }
      else none
  | .handleEvent token env => do
      let v ← g.servers[token]?
      if v.phase = .handle then g.handleEvent v env else none
  | .loop token => do
      let v ← g.servers[token]?
      if v.phase = .handle ∧ v.eventBuffer = [] then some (g.put v.loop) else none
  | .user token bundle act => do
      let v ← g.servers[token]?
      let value ← v.connections.heap bundle
      some (g.put (v.withContext bundle value (act.exec value.context)))

end ServerGroup

end FluentNet
