import FluentNet.Network.Buffer
import FluentNet.Policy
set_option autoImplicit false

namespace FluentNet
open Throwing

/-- The members of `Context` and of its policy bases that decide anything. -/
structure Context where
  nState : NetworkState
  /-- `use_count()` of `_lifecycle`, when it is not null -/
  lifecycle : Option Nat
  sendProvider : List Nat
  sendCurrentIndex : Nat
  sendCompletedIndex : Nat
  events : EventBitmap
  eState : EventState
  input : Buffer
  output : Buffer
  exception : Option Exn
  deriving DecidableEq, Repr

def Context.init : Context where
  nState := .connecting
  lifecycle := none
  sendProvider := []
  sendCurrentIndex := Completion.FAST_COMPLETE+1
  sendCompletedIndex := Completion.FAST_COMPLETE+1
  events := EVENT_NONE
  eState := .new
  input := Buffer.ofSize Buffer.DEFAULT_SIZE
  output := Buffer.ofSize Buffer.DEFAULT_SIZE
  exception := none

/-- One `::epoll_ctl`: what it asked for, the registration it found and whether it
was let through. -/
structure CtlCall where
  op : EpollOperationHint
  mask : EventBitmap
  found : Option EventBitmap
  ok : Bool
  deriving DecidableEq, Repr

inductive Effect where
  | entered (n : NetworkState)
  /-- a call of `_connectCallback`, `_messageCallback` or `_closeCallback` -/
  | connect | message | close
  /-- `::shutdown(fd, SHUT_WR)`, with `output.unread()` at that moment -/
  | shutWr (unread : Int)
  deriving DecidableEq, Repr

/-- A context with its socket as the kernel sees it and its share of the looper. -/
structure Conn extends Context where
  wire : List UInt8
  /-- the mask the fd is registered with in the epoll set, if it is registered -/
  interest : Option EventBitmap
  ctls : List CtlCall
  /-- the kernel has reported that no readable data is left -/
  eof : Bool
  /-- the polls that `shutdown` posted to the looper and that are not done -/
  deferred : Nat
  log : List Effect
  deriving DecidableEq, Repr

def Conn.init : Conn where
  toContext := Context.init
  wire := []
  interest := none
  ctls := []
  eof := false
  deferred := 0
  log := []

/-- Whether the environment lets an `::epoll_ctl` through or fails it with an errno. -/
abbrev CtlAnswer := Option Nat

namespace EpollOperationHint

/-- The kernel refuses to add an fd twice, and to change or delete an absent one. -/
def legal : EpollOperationHint → Option EventBitmap → Bool
  | .add, Option.none => true
  | .mod, some _ => true
  | .del, some _ => true
  | _, _ => false

def refusal : EpollOperationHint → Nat
  | .add => EEXIST
  | _ => ENOENT

def result (op : EpollOperationHint) (mask : EventBitmap) : Option EventBitmap :=
  match op with
  | .del => Option.none
  | _ => some mask

end EpollOperationHint

abbrev ConnAct := Act Exn Conn

def onInput {α : Type} : Act Exn Buffer α → ConnAct α :=
  Act.zoom (fun s => s.input) (fun s b => { s with input := b })

def onOutput {α : Type} : Act Exn Buffer α → ConnAct α :=
  Act.zoom (fun s => s.output) (fun s b => { s with output := b })

def onWire {α : Type} : Act Exn (List UInt8) α → ConnAct α :=
  Act.zoom (fun s => s.wire) (fun s wire => { s with wire })

def onOutputWire {α : Type} : Act Exn (Buffer × List UInt8) α → ConnAct α :=
  Act.zoom (fun s => (s.output,s.wire)) (fun s p => { s with output := p.1, wire := p.2 })

def record (e : Effect) : ConnAct Unit :=
  Act.modify (fun s => { s with log := s.log ++ [e] })

def enter (n : NetworkState) : ConnAct Unit :=
  Act.modify (fun s => { s with nState := n, log := s.log ++ [.entered n] })

def Multiplexer.update (op : EpollOperationHint) (ctl : CtlAnswer) : ConnAct Unit := fun s =>
  let after ok : Conn := { s with ctls := s.ctls ++ [⟨op,s.events,s.interest,ok⟩] }
  if op.legal s.interest then
    match ctl with
    | none => (.ok (),{ after true with interest := op.result s.events })
    | some err => (.error (.epollControlException err),after false)
  else (.error (.epollControlException op.refusal),after false)

/-- `operation = updateEventState()`, then `update` unless it is `EPOLL_CTL_NONE`. -/
def updateEvents (ctl : CtlAnswer) : ConnAct Unit := do
  let c ← Act.get
  let next := updateEventState c.eState c.events
  Act.modify (fun s => { s with eState := next.1 })
  Act.onlyIf (next.2 ≠ .none) (Multiplexer.update next.2 ctl)

def Socket.shutdown : ConnAct Unit :=
  Act.modify (fun s => { s with log := s.log ++ [.shutWr s.output.unread] })

namespace Context

def shutdown : ConnAct Unit := do
  let c ← Act.get
  Act.onlyIf (c.nState = .connected) (do
    enter .disconnecting
    if writeEnabled c.events then
      Act.modify (fun s => { s with deferred := s.deferred+1 })
    else Socket.shutdown)

/-- The lambda that `shutdown` polls with. -/
def shutdownPoll : ConnAct Bool := do
  let c ← Act.get
  if c.nState = .connected ∧ !writeEnabled c.events then
    Socket.shutdown
    pure true
  -- disconnecting or disconnected: abort
  else if c.nState ≠ .connected then pure true
  else pure false

def armWrite (ctl : CtlAnswer) : ConnAct Unit := do
  let c ← Act.get
  Act.onlyIf (!writeEnabled c.events) (do
    Act.modify (fun s => { s with events := s.events ||| EVENT_WRITE })
    updateEvents ctl)

def enqueue (rest : List UInt8) (ctl : CtlAnswer) : ConnAct Completion := do
  onOutput (Buffer.append rest)
  Act.modify (fun s => { s with sendProvider := s.sendProvider ++ [rest.length] })
  let c ← Act.get
  let sendToken := c.sendCurrentIndex
  Act.modify (fun s => { s with sendCurrentIndex := s.sendCurrentIndex+1 })
  armWrite ctl
  pure ⟨sendToken⟩

def send (buf : List UInt8) (ans : WriteAnswer) (ctl : CtlAnswer) : ConnAct Completion := do
  let c ← Act.get
  if c.nState ≠ .disconnecting ∧ c.nState ≠ .disconnected then
    let ret ← onWire (Socket.write buf ans)
    if ret = buf.length then pure ⟨Completion.FAST_COMPLETE⟩
    else enqueue (buf.drop ret.toNat) ctl
  else pure ⟨Completion.INVALID⟩

/-- One posted poll: it is queued again unless it is done. -/
def runPoll : ConnAct Unit := do
  let done ← shutdownPoll
  Act.onlyIf (!done) (Act.modify (fun s => { s with deferred := s.deferred+1 }))

/-- One `Looper::loop()` over the polls that `shutdown` posted. -/
def loopPass : ConnAct Unit := do
  let c ← Act.get
  Act.modify (fun s => { s with deferred := 0 })
  Act.each (fun _ => runPoll) (List.replicate c.deferred ())

end Context
end FluentNet
