import FluentNet.Library.Handles
import FluentNet.Library.Throwing
set_option autoImplicit false

/-! The descriptors of the process, and the objects that own one. -/

namespace FluentNet
open Throwing

/-- The numbers that are open, and the calls of `::close` on others. -/
structure Fds where
  opened : List Int
  stray : List Int
  deriving DecidableEq, Repr

namespace Fds

def enter (fds : Fds) (fd : Int) : Fds := { fds with opened := fd :: fds.opened }

def close (fds : Fds) (fd : Int) : Fds :=
  if fd ∈ fds.opened then { fds with opened := fds.opened.erase fd }
  else { fds with stray := fds.stray ++ [fd] }

/-- What a call that makes a descriptor may return: a number that is not in use, or a negative one. -/
def Offers (fds : Fds) (fd : Int) : Prop := 0 ≤ fd → fd ∉ fds.opened

instance (fds : Fds) (fd : Int) : Decidable (fds.Offers fd) :=
  inferInstanceAs (Decidable (0 ≤ fd → _))

end Fds

structure Socket where
  socketFd : Int
  deriving DecidableEq, Repr

inductive SetupExn where
  | socketCreateException (err : Nat)
  | socketException (err : Nat)
  | socketBindException (err : Nat)
  deriving DecidableEq, Repr

namespace Socket

def INVALID_FD : Int := -1

def invalid : Socket := ⟨INVALID_FD⟩

def held (s : Socket) : Option Int := if s.socketFd ≠ INVALID_FD then some s.socketFd else none

def create (fd : Int) (err : Nat) : Act SetupExn Fds Socket :=
  if fd < 0 then Act.throw (.socketCreateException err)
  else do
    Act.modify (fun fds => fds.enter fd)
    pure ⟨fd⟩

def destroy (s : Socket) (fds : Fds) : Fds :=
  if s.socketFd ≠ INVALID_FD then fds.close s.socketFd else fds

/-- `Socket(Socket &&rhs)`: the new object, and what is left of `rhs` -/
def move (rhs : Socket) : Socket × Socket := (⟨rhs.socketFd⟩,⟨INVALID_FD⟩)

def assign (self rhs : Socket) (fds : Fds) : Socket × Socket × Fds :=
  let (temp,rhs) := rhs.move
  let (temp,self) := (self,temp)
  (self,rhs,temp.destroy fds)

def release (s : Socket) : Int × Socket := (s.socketFd,⟨INVALID_FD⟩)

end Socket

structure Acceptor where
  listenDescriptor : Socket
  lastBufferedSocket : Socket
  deriving DecidableEq, Repr

/-- The results of the calls of `Acceptor::Acceptor`: a descriptor, and 0 or an errno each. -/
structure ListenAnswers where
  socket : Int
  socketErr : Nat
  setReusePort : Nat
  setReuseAddr : Nat
  bind : Nat
  deriving DecidableEq, Repr

def Socket.check (err : Nat) (exn : Nat → SetupExn) : Act SetupExn Fds Unit :=
  if err ≠ 0 then Act.throw (exn err) else pure ()

namespace Acceptor

/-- `Acceptor::Acceptor`. A throw in its body destroys both members. -/
def make (ans : ListenAnswers) : Act SetupExn Fds Acceptor := do
  let listenDescriptor ← Socket.create ans.socket ans.socketErr
  let lastBufferedSocket : Socket := ⟨Socket.INVALID_FD⟩
  Act.attempt
    (do
      Socket.check ans.setReusePort .socketException
      Socket.check ans.setReuseAddr .socketException
      Socket.check ans.bind .socketBindException
      pure ⟨listenDescriptor,lastBufferedSocket⟩)
    (fun e => do
      Act.modify lastBufferedSocket.destroy
      Act.modify listenDescriptor.destroy
      Act.throw e)

def destroy (a : Acceptor) (fds : Fds) : Fds :=
  a.listenDescriptor.destroy (a.lastBufferedSocket.destroy fds)

def accept (a : Acceptor) (maybeFd : Int) (fds : Fds) : Bool × Acceptor × Fds :=
  if 0 ≤ maybeFd then
    let fds := fds.enter maybeFd
    let (lastBufferedSocket,temp,fds) := a.lastBufferedSocket.assign ⟨maybeFd⟩ fds
    (true,{ a with lastBufferedSocket },temp.destroy fds)
  else (false,a,fds)

/-- `aceeptResult()`: the socket of the pair that it returns, and what is left -/
def aceeptResult (a : Acceptor) : Socket × Acceptor :=
  let (socket,lastBufferedSocket) := a.lastBufferedSocket.move
  (socket,{ a with lastBufferedSocket })

end Acceptor

section Sockets

theorem Socket.held_invalid : Socket.invalid.held = none := rfl

theorem Socket.held_of_nonneg {fd : Int} (h : 0 ≤ fd) : Socket.held ⟨fd⟩ = some fd := by
  have hne : fd ≠ INVALID_FD := by
    simp only [INVALID_FD]
    omega
  simp [held,hne]

theorem Socket.destroy_held {s : Socket} (fds : Fds) :
    s.destroy fds = match s.held with
      | none => fds
      | some fd => fds.close fd := by
  simp only [destroy,held]
  split <;> rfl

@[simp] theorem Socket.destroy_invalid (fds : Fds) : Socket.destroy ⟨INVALID_FD⟩ fds = fds := rfl

@[simp] theorem Fds.close_enter (fds : Fds) (fd : Int) : (fds.enter fd).close fd = fds := by
  simp [enter,close]

theorem Socket.check_bind {α : Type} (err : Nat) (exn : Nat → SetupExn)
    (f : Unit → Act SetupExn Fds α) (fds : Fds) :
    (Socket.check err exn >>= f) fds = if err ≠ 0 then (.error (exn err),fds) else f () fds := by
  by_cases h : err = 0
  · simp [Socket.check,h,Act.bind_apply]
  · simp [Socket.check,h]

theorem Acceptor.make_cases (ans : ListenAnswers) (fds : Fds) :
    (∃ e, Acceptor.make ans fds = (.error e,fds)) ∨
    (0 ≤ ans.socket ∧
      Acceptor.make ans fds = (.ok ⟨⟨ans.socket⟩,.invalid⟩,fds.enter ans.socket)) := by
  by_cases hneg : ans.socket < 0
  · exact .inl ⟨.socketCreateException ans.socketErr,by simp [make,Socket.create,hneg]⟩
  · have hvalid : ans.socket ≠ Socket.INVALID_FD := by
      simp only [Socket.INVALID_FD]
      omega
    have hcreate : Socket.create ans.socket ans.socketErr fds = (.ok ⟨ans.socket⟩,fds.enter ans.socket) := by
      simp [Socket.create,hneg]
    have hclosed : Socket.destroy ⟨ans.socket⟩ (fds.enter ans.socket) = fds := by
      simp [Socket.destroy,hvalid]
    rw [make,Act.bind_of_ok hcreate]
    simp only [Act.attempt,Socket.check_bind,Act.pure_apply]
    by_cases h1 : ans.setReusePort = 0
    · by_cases h2 : ans.setReuseAddr = 0
      · by_cases h3 : ans.bind = 0
        · exact .inr ⟨by omega,by simp [h1,h2,h3,Socket.invalid]⟩
        · exact .inl ⟨.socketBindException ans.bind,by simp [h1,h2,h3,hclosed]⟩
      · exact .inl ⟨.socketException ans.setReuseAddr,by simp [h1,h2,hclosed]⟩
    · exact .inl ⟨.socketException ans.setReusePort,by simp [h1,hclosed]⟩

theorem Acceptor.accept_result (a : Acceptor) {maybeFd : Int} (fds : Fds) (h : 0 ≤ maybeFd)
    (hempty : a.lastBufferedSocket = .invalid) :
    a.accept maybeFd fds = (true,{ a with lastBufferedSocket := ⟨maybeFd⟩ },fds.enter maybeFd) ∧
    Acceptor.aceeptResult { a with lastBufferedSocket := ⟨maybeFd⟩ } = (⟨maybeFd⟩,a) := by
  obtain ⟨listenDescriptor,lastBufferedSocket⟩ := a
  cases hempty
  simp [accept,aceeptResult,Socket.assign,Socket.move,h]

end Sockets

end FluentNet
