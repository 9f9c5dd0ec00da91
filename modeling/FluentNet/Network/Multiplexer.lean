import FluentNet.Network.Pool
set_option autoImplicit false

/-! The part of the multiplexer that servers share: events on their way from epoll to a handler. -/

namespace FluentNet

def EPOLLERR : EventBitmap := 8
def EPOLLHUP : EventBitmap := 16

structure EpollEvent where
  bundle : Bundle
  events : EventBitmap
  /-- how many pairs had been at the address when the kernel reported this one -/
  serial : Nat
  deriving DecidableEq, Repr

structure Multiplexer where
  /-- the events of the last `epoll_wait` that are still to be dispatched -/
  events : List EpollEvent
  eventVectors : List (List EpollEvent)
  token : Token
  deriving DecidableEq, Repr

namespace Multiplexer

/-- The size of `_events`; `reserve` only changes its capacity. -/
def EVENTS : Nat := 16

def init : Multiplexer := ⟨[],[],0⟩

def newToken (m : Multiplexer) : Token × Multiplexer :=
  (m.token,{ m with eventVectors := m.eventVectors ++ [[]], token := m.token+1 })

def visit (m : Multiplexer) (token : Token) : List EpollEvent := m.eventVectors.getD token []

def push (m : Multiplexer) (index : Token) (event : EpollEvent) : Multiplexer :=
  { m with eventVectors := m.eventVectors.modify index (fun events => events ++ [event]) }

/-- `dispatchActiveContext` on events whose bundles carry these tokens -/
def dispatchActiveContext (m : Multiplexer) (events : List (Token × EpollEvent)) : Multiplexer :=
  events.foldl (fun m p => m.push p.1 p.2) m

/-- What a server leaves behind when it swaps its buffer in. -/
def leave (m : Multiplexer) (token : Token) (buffer : List EpollEvent) : Multiplexer :=
  { m with eventVectors := m.eventVectors.set token buffer }

@[simp] theorem token_push (m : Multiplexer) (index : Token) (event : EpollEvent) :
    (m.push index event).token = m.token := rfl

@[simp] theorem length_push (m : Multiplexer) (index : Token) (event : EpollEvent) :
    (m.push index event).eventVectors.length = m.eventVectors.length := by
  simp [push]

theorem mem_visit_push {m : Multiplexer} {index i : Token} {event e : EpollEvent}
    (h : e ∈ (m.push index event).visit i) : e ∈ m.visit i ∨ (index = i ∧ e = event) := by
  simp only [visit,push,List.getD_eq_getElem?_getD,List.getElem?_modify] at h ⊢
  by_cases hi : index = i
  · subst hi
    cases hv : m.eventVectors[index]? with
    | none => simp [hv] at h
    | some events => simpa [hv] using h
  · simp only [hi,if_false] at h
    exact .inl (by simpa using h)

theorem visit_newToken (m : Multiplexer) (i : Token) : m.newToken.2.visit i = m.visit i := by
  simp only [visit,newToken,List.getD_eq_getElem?_getD]
  rcases Nat.lt_trichotomy i m.eventVectors.length with hi | rfl | hi
  · rw [List.getElem?_append_left hi]
  · simp
  · rw [List.getElem?_append_right (Nat.le_of_lt hi),List.getElem?_eq_none (Nat.le_of_lt hi),
      List.getElem?_eq_none (by simp only [List.length_singleton]; omega)]

theorem visit_leave_other (m : Multiplexer) {token i : Token} (h : token ≠ i)
    (buffer : List EpollEvent) : (m.leave token buffer).visit i = m.visit i := by
  simp [visit,leave,h]

theorem mem_visit_leave {m : Multiplexer} {token : Token} {buffer : List EpollEvent} {e : EpollEvent}
    (h : e ∈ (m.leave token buffer).visit token) : e ∈ buffer := by
  simp only [visit,leave,List.getD_eq_getElem?_getD,List.getElem?_set,if_true] at h
  split at h
  · exact h
  · cases h

end Multiplexer

/-- `epoll_wait` may report these bits: some that were asked for, or an error or a
hang-up, which nobody needs to ask for. -/
def Conn.reported (s : Conn) (revent : EventBitmap) : Bool :=
  match s.interest with
  | none => false
  | some mask => revent != 0 && revent &&& ~~~(mask ||| EPOLLERR ||| EPOLLHUP) == 0

end FluentNet
