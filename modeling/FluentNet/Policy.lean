import Mathlib.Data.Nat.Notation
set_option autoImplicit false

namespace FluentNet

inductive NetworkState where
  | connecting | connected | disconnecting | disconnected
  deriving DecidableEq, Repr

def NetworkState.rank : NetworkState → Nat
  | .connecting => 0
  | .connected => 1
  | .disconnecting => 2
  | .disconnected => 3

/-- `SendPolicy::Completion`; the master is the context it came from. -/
structure Completion where
  token : Nat
  deriving DecidableEq, Repr

namespace Completion

/-- index flag: never -/
def INVALID : Nat := 0

/-- index flag: always -/
def FAST_COMPLETE : Nat := 1

end Completion

abbrev EventBitmap := BitVec 32

section Bits

/-! The `si_code` names of `<signal.h>`, which the event masks are built from. -/

def POLL_IN : EventBitmap := 1
def POLL_OUT : EventBitmap := 2
def POLL_PRI : EventBitmap := 5

def EVENT_NONE : EventBitmap := 0
def EVENT_READ : EventBitmap := POLL_IN ||| POLL_PRI
def EVENT_WRITE : EventBitmap := POLL_OUT

/-! The bits of `<poll.h>`, which events are delivered with. -/

def POLLIN : EventBitmap := 1
def POLLPRI : EventBitmap := 2
def POLLOUT : EventBitmap := 4
def POLLERR : EventBitmap := 8
def POLLHUP : EventBitmap := 16
def POLLNVAL : EventBitmap := 32
def POLLRDHUP : EventBitmap := 0x2000

/-! The bits of `<sys/epoll.h>`, which the kernel reads an interest mask with. -/

def EPOLLIN : EventBitmap := 1
def EPOLLOUT : EventBitmap := 4

def hasBits (mask bits : EventBitmap) : Bool := mask &&& bits != 0

end Bits

def readEnabled (events : EventBitmap) : Bool := hasBits events EVENT_READ
def writeEnabled (events : EventBitmap) : Bool := hasBits events EVENT_WRITE

/-! The four switches leave the mask alone when it has the bit asked for. -/

def enableRead (events : EventBitmap) : EventBitmap :=
  if readEnabled events then events else events ||| EVENT_READ

def enableWrite (events : EventBitmap) : EventBitmap :=
  if writeEnabled events then events else events ||| EVENT_WRITE

def disableRead (events : EventBitmap) : EventBitmap :=
  if readEnabled events then events &&& ~~~EVENT_READ else events

def disableWrite (events : EventBitmap) : EventBitmap :=
  if writeEnabled events then events &&& ~~~EVENT_WRITE else events

section Masks

theorem hasBits_or_self {mask bits : EventBitmap} (h : bits ≠ 0) :
    hasBits (mask ||| bits) bits = true := by
  have hb : (mask ||| bits) &&& bits = bits := by
    ext i
    simp only [BitVec.getElem_and,BitVec.getElem_or]
    cases mask[i] <;> cases bits[i] <;> rfl
  simpa [hasBits,hb] using h

theorem hasBits_or_apart {mask more bits : EventBitmap} (h : more &&& bits = 0) :
    hasBits (mask ||| more) bits = hasBits mask bits := by
  have hb : (mask ||| more) &&& bits = mask &&& bits ||| more &&& bits := by
    ext i
    simp only [BitVec.getElem_and,BitVec.getElem_or]
    cases mask[i] <;> cases more[i] <;> cases bits[i] <;> rfl
  rw [hasBits,hb,h]
  simp [hasBits]

theorem hasBits_clear_self (mask bits : EventBitmap) :
    hasBits (mask &&& ~~~bits) bits = false := by
  simp [hasBits,BitVec.and_assoc]

theorem hasBits_clear_apart {mask less bits : EventBitmap} (h : less &&& bits = 0) :
    hasBits (mask &&& ~~~less) bits = hasBits mask bits := by
  have hb : mask &&& ~~~less &&& bits = mask &&& bits := by
    ext i hi
    have hd : (less &&& bits)[i] = (0 : EventBitmap)[i] := by rw [h]
    simp only [BitVec.getElem_and] at hd
    simp only [BitVec.getElem_and,BitVec.getElem_not]
    cases hl : less[i] <;> cases hm : bits[i] <;> simp [hl,hm] at *
  rw [hasBits,hb]
  rfl

/-! The read and the write mask share no bit, so each switch moves its own side only. -/

variable (events : EventBitmap)

@[simp] theorem writeEnabled_or_write : writeEnabled (events ||| EVENT_WRITE) = true :=
  hasBits_or_self (by decide)

@[simp] theorem readEnabled_or_write :
    readEnabled (events ||| EVENT_WRITE) = readEnabled events :=
  hasBits_or_apart (by decide)

@[simp] theorem readEnabled_enableRead : readEnabled (enableRead events) = true := by
  unfold enableRead
  split
  · assumption
  · exact hasBits_or_self (by decide)

@[simp] theorem writeEnabled_disableWrite : writeEnabled (disableWrite events) = false := by
  unfold disableWrite
  split
  · exact hasBits_clear_self _ _
  · exact (Bool.not_eq_true _).mp ‹_›

@[simp] theorem readEnabled_disableWrite :
    readEnabled (disableWrite events) = readEnabled events := by
  unfold disableWrite
  split
  · exact hasBits_clear_apart (by decide)
  · rfl

@[simp] theorem readEnabled_disableRead : readEnabled (disableRead events) = false := by
  unfold disableRead
  split
  · exact hasBits_clear_self _ _
  · exact (Bool.not_eq_true _).mp ‹_›

theorem ne_none_of_readEnabled {events : EventBitmap} (h : readEnabled events = true) :
    events ≠ EVENT_NONE := by
  rintro rfl
  exact absurd h (by decide)

end Masks

inductive EventState where
  | new | added | deleted
  deriving DecidableEq, Repr

inductive EpollOperationHint where
  | none | add | mod | del
  deriving DecidableEq, Repr

/-- The next state and the operation to ask of epoll. -/
def updateEventState (eState : EventState) (events : EventBitmap) :
    EventState × EpollOperationHint :=
  match eState with
  | .new | .deleted => (.added,.add)
  | .added => if events = EVENT_NONE then (.deleted,.del) else (.added,.mod)

theorem updateEventState_absent {eState : EventState} (h : eState ≠ .added)
    (events : EventBitmap) : updateEventState eState events = (.added,.add) := by
  cases eState with
  | new => rfl
  | deleted => rfl
  | added => exact absurd rfl h

theorem updateEventState_ne_none (eState : EventState) (events : EventBitmap) :
    (updateEventState eState events).2 ≠ .none := by
  unfold updateEventState
  cases eState
  · simp
  · dsimp only
    split <;> simp
  · simp

end FluentNet
