import FluentNet.Network.Context
set_option autoImplicit false

namespace FluentNet
open Throwing

structure Handler where
  connectFlag : Bool
  messageFlag : Bool
  closeFlag : Bool
  deriving DecidableEq, Repr

def Handler.all : Handler := ⟨true,true,true⟩

inductive UserCall where
  | send (buf : List UInt8) (ans : WriteAnswer) (ctl : CtlAnswer)
  | shutdown
  deriving DecidableEq, Repr

/-- One invocation of a user callback: the calls it makes on the context, and the
exception it ends in. An exception of `send` that the callback does not catch is
one it ends in. -/
structure Callback where
  calls : List UserCall
  throws : Option Exn
  deriving DecidableEq, Repr

def Callback.silent : Callback := ⟨[],none⟩

structure CloseEnv where
  ctl : CtlAnswer
  callback : Callback
  deriving DecidableEq, Repr

structure EventEnv where
  hup : CloseEnv
  read : ReadAnswer
  message : Callback
  fin : CloseEnv
  write : WriteAnswer
  ctl : CtlAnswer
  deriving DecidableEq, Repr

def UserCall.exec : UserCall → ConnAct Unit
  | .send buf ans ctl =>
      Act.attempt (do
        let _ ← Context.send buf ans ctl
        pure ()) (fun _ => pure ())
  | .shutdown => Context.shutdown

def Callback.exec (cb : Callback) : ConnAct Unit := do
  Act.each UserCall.exec cb.calls
  match cb.throws with
  | none => pure ()
  | some e => Act.throw e

/-- The loop of `handleWriteComplete`: the queue and the completed index after
`n` more bytes are out. -/
def completeSends : Nat → List Nat → Nat → List Nat × Nat
  | _, [], completed => ([],completed)
  | 0, provider, completed => (provider,completed)
  | n+1, front :: rest, completed =>
      if front > n+1 then ((front-(n+1)) :: rest,completed)
      else completeSends (n+1-front) rest (completed+1)

namespace Handler
variable (h : Handler)

def catchException (e : Exn) : ConnAct Unit :=
  Act.modify (fun s => { s with exception := some e })

def watch (ctl : CtlAnswer) : ConnAct Unit := do
  Act.modify (fun s => { s with events := enableRead s.events })
  updateEvents ctl

def unwatch (ctl : CtlAnswer) : ConnAct Unit := do
  Act.modify (fun s => { s with events := disableWrite (disableRead s.events) })
  updateEvents ctl

def handleNewContext (ctl : CtlAnswer) (cb : Callback) : ConnAct Unit :=
  Act.attempt (do
    enter .connected
    watch ctl
    Act.onlyIf h.connectFlag (do
      record .connect
      cb.exec)) catchException

def begun (ctl : CtlAnswer) : Conn := (h.handleNewContext ctl .silent Conn.init).2

def handleClose (env : CloseEnv) : ConnAct Unit := do
  let c ← Act.get
  Act.onlyIf (c.nState = .connected ∨ c.nState = .disconnecting) (do
    Context.shutdown
    unwatch env.ctl
    enter .disconnected
    Act.onlyIf h.closeFlag (do
      record .close
      env.callback.exec))

def handleError : ConnAct Unit := Act.throw (.fluentException "error callback")

def readInput (ans : ReadAnswer) : ConnAct Int := do
  let n ← onInput (Buffer.readFrom ans)
  Act.modify (fun s => { s with eof := s.eof || n == 0 })
  pure n

def handleRead (env : EventEnv) : ConnAct Unit := do
  let n ← readInput env.read
  if n > 0 then
    Act.onlyIf h.messageFlag (do
      record .message
      env.message.exec)
  else if n = 0 then handleClose h env.fin
  else Act.onlyIf (env.read.errno ≠ EAGAIN ∧ env.read.errno ≠ EINTR) handleError

def handleWriteComplete (n : Int) : ConnAct Unit :=
  Act.modify (fun s =>
    let next := completeSends n.toNat s.sendProvider s.sendCompletedIndex
    { s with sendProvider := next.1, sendCompletedIndex := next.2 })

def disarmWrite (ctl : CtlAnswer) : ConnAct Unit := do
  let c ← Act.get
  Act.onlyIf (writeEnabled c.events) (do
    Act.modify (fun s => { s with events := disableWrite s.events })
    updateEvents ctl)

def handleWrite (ans : WriteAnswer) (ctl : CtlAnswer) : ConnAct Unit := do
  let c ← Act.get
  Act.onlyIf (writeEnabled c.events) (do
    let n ← onOutputWire (Buffer.writeTo ans)
    handleWriteComplete n
    let c ← Act.get
    Act.onlyIf (n > 0 ∧ c.output.unread = 0) (disarmWrite ctl))

def hungUp (revent : EventBitmap) : Bool := hasBits revent POLLHUP && !hasBits revent POLLIN

def handleEvent (revent : EventBitmap) (env : EventEnv) : ConnAct Unit := do
  Act.onlyIf (hungUp revent) (handleClose h env.hup)
  Act.onlyIf (hasBits revent (POLLERR ||| POLLNVAL)) handleError
  Act.onlyIf (hasBits revent (POLLIN ||| POLLPRI ||| POLLRDHUP)) (handleRead h env)
  Act.onlyIf (hasBits revent POLLOUT) (handleWrite env.write env.ctl)

/-- One turn of the loop of `handleEvents`. The kernel reported the hang-up with
the event itself. -/
def dispatch (revent : EventBitmap) (env : EventEnv) : ConnAct Unit := do
  Act.modify (fun s => { s with eof := s.eof || hungUp revent })
  Act.attempt (handleEvent h revent env) catchException

end Handler

/-- What one turn of the loop of `handleEvents` brings to a context: an event for
it, or calls that the callbacks of other contexts make on it. -/
inductive Delivery where
  | event (revent : EventBitmap) (env : EventEnv)
  | other (calls : List UserCall)
  deriving DecidableEq, Repr

def Delivery.exec (h : Handler) : Delivery → ConnAct Unit
  | .event revent env => h.dispatch revent env
  | .other calls => Act.each UserCall.exec calls

def Handler.handleEvents (h : Handler) (buffer : List Delivery) : ConnAct Unit :=
  Act.each (Delivery.exec h) buffer

inductive Switch where
  | enableRead | enableWrite | disableRead | disableWrite
  deriving DecidableEq, Repr

def Switch.apply : Switch → EventBitmap → EventBitmap
  | .enableRead => FluentNet.enableRead
  | .enableWrite => FluentNet.enableWrite
  | .disableRead => FluentNet.disableRead
  | .disableWrite => FluentNet.disableWrite

inductive Op where
  | handleNewContext (ctl : CtlAnswer) (cb : Callback)
  | call (c : UserCall)
  | handleWrite (ans : WriteAnswer) (ctl : CtlAnswer)
  | handleClose (env : CloseEnv)
  | event (revent : EventBitmap) (env : EventEnv)
  | loopPass
  /-- one of the public switches, then `updateEventState` and `Multiplexer::update` -/
  | interest (switch : Switch) (ctl : CtlAnswer)
  deriving DecidableEq, Repr

def Op.exec (h : Handler) : Op → ConnAct Unit
  | .handleNewContext ctl cb => h.handleNewContext ctl cb
  | .call c => c.exec
  | .handleWrite ans ctl => Handler.handleWrite ans ctl
  | .handleClose env => h.handleClose env
  | .event revent env => h.dispatch revent env
  | .loopPass => Context.loopPass
  | .interest switch ctl => do
      Act.modify (fun s => { s with events := switch.apply s.events })
      updateEvents ctl

def Conn.step (h : Handler) (s : Conn) (op : Op) : Option Conn := some (op.exec h s).2

def Conn.execs (h : Handler) (s : Conn) (ops : List Op) : Conn :=
  ops.foldl (fun s op => (op.exec h s).2) s

end FluentNet
