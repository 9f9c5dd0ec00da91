import FluentNet.Library.Runs
import FluentNet.Throws
import Mathlib.Data.List.Chain
set_option autoImplicit false

/-!
A connection request, from `::connect` to the socket that is handed on. The looper
runs the poll of `Connector::connect` again and again, then its `cancelIf` and `then`.
-/

namespace FluentNet
open Runs

namespace Connector

/-- One `::connect` on a socket, and the result of the `getpeername` after it if
there was one. A result is 0 or an errno. Sockets are numbered as they are made. -/
structure Attempt where
  socket : Nat
  err : Nat
  peer : Option Nat
  deriving DecidableEq, Repr

/-- The tuple that the stages share; `α` is `InetAddress`. -/
structure Arguments (α : Type) where
  address : α
  socket : Nat
  err : Nat
  reconnect : Bool
  nextInstance : Bool
  deriving DecidableEq, Repr

inductive Stage (α : Type) where
  | poll | cancelIf | arguments | canceled
  | delivered (address : α) (socket : Nat)
  deriving DecidableEq, Repr

structure Request (α : Type) where
  arguments : Arguments α
  stage : Stage α
  /-- how many sockets have been made -/
  sockets : Nat
  attempts : List Attempt
  deriving DecidableEq, Repr

structure Answer where
  connect : Nat
  getpeername : Nat
  deriving DecidableEq, Repr

/-- The errnos after which the poll asks for another socket. -/
def renewed : List Nat := [EINTR,ENETUNREACH,ETIMEDOUT]

/-- The errnos after which the poll looks for a peer. -/
def checked : List Nat := [EINPROGRESS,EISCONN,EALREADY,ECONNREFUSED]

variable {α : Type}

def connect (address : α) (err : Nat) : Request α where
  arguments := ⟨address,0,err,false,false⟩
  stage := .poll
  sockets := 1
  attempts := [⟨0,err,none⟩]

namespace Request

def nextSocket (s : Request α) : Request α :=
  { s with
    arguments := { s.arguments with socket := s.sockets, nextInstance := false }
    sockets := s.sockets+1 }

def connectAgain (s : Request α) (err : Nat) : Request α :=
  { s with
    arguments := { s.arguments with err, reconnect := false }
    attempts := s.attempts ++ [⟨s.arguments.socket,err,none⟩] }

def testFailed (s : Request α) (err : Nat) : Request α :=
  { s with
    arguments := { s.arguments with err }
    attempts := s.attempts.dropLast ++
      (s.attempts.getLast?.map (fun a => { a with peer := some err })).toList }

def pollOnce (s : Request α) (answer : Answer) : Bool × Request α :=
  if s.arguments.reconnect then
    let s := if s.arguments.nextInstance then s.nextSocket else s
    let s := s.connectAgain answer.connect
    (s.arguments.err = 0,s)
  else if s.arguments.err = 0 then (true,s)
  else if s.arguments.err ∈ renewed then
    (false,{ s with arguments := { s.arguments with nextInstance := true, reconnect := true } })
  else if s.arguments.err ∈ checked then
    let s := s.testFailed answer.getpeername
    if s.arguments.err ≠ 0 then
      (false,{ s with arguments := { s.arguments with reconnect := true } })
    else (true,s)
  else (true,s)

/-- One task of the looper: what is left to do of the request when it is resumed. -/
def step (s : Request α) (answer : Answer) : Option (Request α) :=
  match s.stage with
  | .poll =>
      let (done,s) := s.pollOnce answer
      some { s with stage := if done then .cancelIf else .poll }
  | .cancelIf => some { s with stage := if s.arguments.err ≠ 0 then .canceled else .arguments }
  | .arguments => some { s with stage := .delivered s.arguments.address s.arguments.socket }
  | .canceled => none
  | .delivered _ _ => none

end Request

def Attempt.Succeeded (a : Attempt) : Prop := a.err = 0 ∨ a.peer = some 0

def Attempt.Next (a b : Attempt) : Prop :=
  (a.err ∈ renewed ∧ a.peer = none ∧ a.socket < b.socket) ∨
  (a.err ∈ checked ∧ (∃ peer, peer ≠ 0 ∧ a.peer = some peer) ∧ b.socket = a.socket)

inductive Standing (s : Request α) (a : Attempt) : Prop where
  | connected (hstage : s.stage = .poll) (hre : s.arguments.reconnect = false)
      (hnext : s.arguments.nextInstance = false) (herr : s.arguments.err = a.err) (hpeer : a.peer = none)
  | renewing (hstage : s.stage = .poll) (hre : s.arguments.reconnect = true)
      (hnext : s.arguments.nextInstance = true) (herr : a.err ∈ renewed) (hpeer : a.peer = none)
  | retrying (hstage : s.stage = .poll) (hre : s.arguments.reconnect = true)
      (hnext : s.arguments.nextInstance = false) (herr : a.err ∈ checked) (peer : Nat) (hne : peer ≠ 0)
      (hpeer : a.peer = some peer)
  | done (hstage : s.stage ≠ .poll) (hcanceled : s.stage ≠ .canceled) (herr : s.arguments.err = 0)
      (ha : a.Succeeded)
  | refused (hstage : s.stage = .cancelIf ∨ s.stage = .canceled) (herr : a.err ≠ 0)
      (hsame : s.arguments.err = a.err) (hrenewed : a.err ∉ renewed) (hchecked : a.err ∉ checked)

structure Request.Inv (address : α) (s : Request α) : Prop where
  kept : s.arguments.address = address
  opened : s.arguments.socket < s.sockets
  chain : s.attempts.IsChain Attempt.Next
  standing : ∃ pre a, s.attempts = pre ++ [a] ∧ a.socket = s.arguments.socket ∧ Standing s a
  delivered : ∀ address' socket, s.stage = .delivered address' socket →
    address' = address ∧ socket = s.arguments.socket

theorem connect_inv (address : α) (err : Nat) : (connect address err).Inv address := by
  refine ⟨rfl,Nat.one_pos,by simp [connect],⟨[],_,rfl,rfl,?_⟩,by simp [connect]⟩
  exact .connected rfl rfl rfl rfl rfl

section Steps
variable {address : α} {s t : Request α} {answer : Answer}

theorem chain_concat {pre : List Attempt} {a b : Attempt} (h : (pre ++ [a]).IsChain Attempt.Next)
    (hab : a.Next b) : (pre ++ [a] ++ [b]).IsChain Attempt.Next := by
  rw [List.isChain_append]
  refine ⟨h,List.isChain_singleton b,?_⟩
  intro x hx y hy
  simp only [List.getLast?_concat,Option.mem_some] at hx
  simp only [List.head?_cons,Option.mem_some] at hy
  rwa [← hx,← hy]

theorem chain_replace {pre : List Attempt} {a b : Attempt} (h : (pre ++ [a]).IsChain Attempt.Next)
    (hab : b.socket = a.socket) : (pre ++ [b]).IsChain Attempt.Next := by
  rw [List.isChain_append] at h ⊢
  refine ⟨h.1,List.isChain_singleton b,?_⟩
  intro x hx y hy
  have hxa := h.2.2 x hx a rfl
  simp only [List.head?_cons,Option.mem_some] at hy
  subst hy
  simpa only [Attempt.Next,hab] using hxa

theorem inv_connectAgain {pre : List Attempt} {a : Attempt} {err : Nat}
    (hkept : s.arguments.address = address) (hopened : s.arguments.socket < s.sockets)
    (hlog : s.attempts = pre ++ [a]) (hchain : (pre ++ [a]).IsChain Attempt.Next)
    (hnew : a.Next ⟨s.arguments.socket,err,none⟩) (hnext : s.arguments.nextInstance = false) :
    Request.Inv address { s.connectAgain err with
      stage := if err = 0 then .cancelIf else .poll } := by
  have hlog' : (s.connectAgain err).attempts = pre ++ [a] ++ [⟨s.arguments.socket,err,none⟩] := by
    simp [Request.connectAgain,hlog]
  refine ⟨hkept,hopened,?_,⟨pre ++ [a],_,hlog',rfl,?_⟩,?_⟩
  · exact hlog' ▸ chain_concat hchain hnew
  · by_cases h0 : err = 0
    · exact .done (by simp [h0]) (by simp [h0]) h0 (.inl h0)
    · exact .connected (by simp [h0]) rfl hnext rfl rfl
  · by_cases h0 : err = 0 <;> simp [h0]

theorem inv_testFailed {pre : List Attempt} {a : Attempt} (err : Nat)
    (hkept : s.arguments.address = address) (hopened : s.arguments.socket < s.sockets)
    (hlog : s.attempts = pre ++ [a]) (hchain : (pre ++ [a]).IsChain Attempt.Next)
    (hsocket : a.socket = s.arguments.socket) (hchecked : a.err ∈ checked)
    (hnext : s.arguments.nextInstance = false) :
    Request.Inv address { s.testFailed err with
      arguments := { (s.testFailed err).arguments with
        reconnect := if err = 0 then s.arguments.reconnect else true }
      stage := if err = 0 then .cancelIf else .poll } := by
  have hlog' : (s.testFailed err).attempts = pre ++ [{ a with peer := some err }] := by
    simp [Request.testFailed,hlog]
  refine ⟨hkept,hopened,?_,⟨pre,_,hlog',hsocket,?_⟩,?_⟩
  · exact hlog' ▸ chain_replace hchain rfl
  · by_cases h0 : err = 0
    · exact .done (by simp [h0]) (by simp [h0]) h0 (.inr (by rw [h0]))
    · exact .retrying (by simp [h0]) (by simp [h0]) hnext hchecked err h0 rfl
  · by_cases h0 : err = 0 <;> simp [h0]

theorem Request.Inv.pollOnce (hs : s.Inv address) (answer : Answer) (hstage : s.stage = .poll) :
    Request.Inv address { (s.pollOnce answer).2 with
      stage := if (s.pollOnce answer).1 then .cancelIf else .poll } := by
  obtain ⟨hkept,hopened,hchain,⟨pre,a,hlog,hsocket,hstanding⟩,_⟩ := hs
  have hchain' : (pre ++ [a]).IsChain Attempt.Next := hlog ▸ hchain
  cases hstanding with
  | connected _ hre hnext herr hpeer =>
    by_cases h0 : a.err = 0
    · have hrun : s.pollOnce answer = (true,s) := by simp [Request.pollOnce,hre,herr,h0]
      rw [hrun]
      refine ⟨hkept,hopened,hchain,⟨pre,a,hlog,hsocket,?_⟩,by simp⟩
      exact .done (by simp) (by simp) (herr.trans h0) (.inl h0)
    · by_cases hrenewed : a.err ∈ renewed
      · have hrun : s.pollOnce answer = (false,{ s with arguments :=
            { s.arguments with nextInstance := true, reconnect := true } }) := by
          simp [Request.pollOnce,hre,herr,h0,hrenewed]
        rw [hrun]
        refine ⟨hkept,hopened,hchain,⟨pre,a,hlog,hsocket,?_⟩,by simp⟩
        exact .renewing rfl rfl rfl hrenewed hpeer
      · by_cases hchecked : a.err ∈ checked
        · have hinv := inv_testFailed answer.getpeername hkept hopened hlog hchain' hsocket hchecked hnext
          by_cases hp : answer.getpeername = 0
          · simpa [Request.pollOnce,hre,herr,h0,hrenewed,hchecked,Request.testFailed,hp] using hinv
          · simpa [Request.pollOnce,hre,herr,h0,hrenewed,hchecked,Request.testFailed,hp] using hinv
        · have hrun : s.pollOnce answer = (true,s) := by
            simp [Request.pollOnce,hre,herr,h0,hrenewed,hchecked]
          rw [hrun]
          refine ⟨hkept,hopened,hchain,⟨pre,a,hlog,hsocket,?_⟩,by simp⟩
          exact .refused (.inl rfl) h0 herr hrenewed hchecked
  | renewing _ hre hnext herr hpeer =>
    have hnew : a.Next ⟨s.sockets,answer.connect,none⟩ := .inl ⟨herr,hpeer,hsocket ▸ hopened⟩
    have hinv := inv_connectAgain (s := s.nextSocket) hkept (Nat.lt_succ_self _) hlog hchain' hnew rfl
    have hrun : s.pollOnce answer =
        (decide (answer.connect = 0),s.nextSocket.connectAgain answer.connect) := by
      simp [Request.pollOnce,hre,hnext,Request.connectAgain]
    rw [hrun]
    simpa using hinv
  | retrying _ hre hnext herr peer hne hpeer =>
    have hnew : a.Next ⟨s.arguments.socket,answer.connect,none⟩ :=
      .inr ⟨herr,⟨peer,hne,hpeer⟩,hsocket.symm⟩
    have hinv := inv_connectAgain hkept hopened hlog hchain' hnew hnext
    have hrun : s.pollOnce answer = (decide (answer.connect = 0),s.connectAgain answer.connect) := by
      simp [Request.pollOnce,hre,hnext,Request.connectAgain]
    rw [hrun]
    simpa using hinv
  | done hstage' => exact absurd hstage hstage'
  | refused hstage' => simp [hstage] at hstage'

theorem Request.Inv.step (hs : s.Inv address) (h : s.step answer = some t) : t.Inv address := by
  cases hstage : s.stage with
  | poll =>
    have hinv := hs.pollOnce answer hstage
    simp only [Request.step,hstage,Option.some.injEq] at h
    exact h ▸ hinv
  | cancelIf =>
    simp only [Request.step,hstage,Option.some.injEq] at h
    subst h
    obtain ⟨hkept,hopened,hchain,⟨pre,a,hlog,hsocket,hstanding⟩,_⟩ := hs
    cases hstanding with
    | done _ _ herr ha =>
      refine ⟨hkept,hopened,hchain,⟨pre,a,hlog,hsocket,?_⟩,by simp [herr]⟩
      exact .done (by simp [herr]) (by simp [herr]) herr ha
    | refused _ herr hsame hrenewed hchecked =>
      have hne : s.arguments.err ≠ 0 := hsame ▸ herr
      refine ⟨hkept,hopened,hchain,⟨pre,a,hlog,hsocket,?_⟩,by simp [hne]⟩
      exact .refused (.inr (by simp [hne])) herr hsame hrenewed hchecked
    | connected hpoll => simp [hstage] at hpoll
    | renewing hpoll => simp [hstage] at hpoll
    | retrying hpoll => simp [hstage] at hpoll
  | arguments =>
    simp only [Request.step,hstage,Option.some.injEq] at h
    subst h
    obtain ⟨hkept,hopened,hchain,⟨pre,a,hlog,hsocket,hstanding⟩,_⟩ := hs
    cases hstanding with
    | done _ _ herr ha =>
      refine ⟨hkept,hopened,hchain,⟨pre,a,hlog,hsocket,.done (by simp) (by simp) herr ha⟩,?_⟩
      intro address' socket hd
      cases hd
      exact ⟨hkept,rfl⟩
    | refused hstage' => simp [hstage] at hstage'
    | connected hpoll => simp [hstage] at hpoll
    | renewing hpoll => simp [hstage] at hpoll
    | retrying hpoll => simp [hstage] at hpoll
  | canceled => simp [Request.step,hstage] at h
  | delivered address' socket => simp [Request.step,hstage] at h

end Steps

structure Request.Sound (address : α) (s : Request α) : Prop where
  /-- a socket is handed on when the last attempt on it succeeded -/
  delivered : ∀ address' socket, s.stage = .delivered address' socket →
    address' = address ∧ ∃ a ∈ s.attempts.getLast?, a.socket = socket ∧ a.Succeeded
  canceled : s.stage = .canceled → ∃ a ∈ s.attempts.getLast?,
    a.socket = s.arguments.socket ∧ a.err ≠ 0 ∧ a.err ∉ renewed ∧ a.err ∉ checked
  polling : ∀ a ∈ s.attempts.getLast?, a.err ∈ renewed ∨ a.err ∈ checked → a.peer ≠ some 0 →
    s.stage = .poll
  retried : ∀ pre a b post, s.attempts = pre ++ a :: b :: post →
    a.err ∈ renewed ∧ (∀ x ∈ pre ++ [a], x.socket < b.socket) ∨
    a.err ∈ checked ∧ (∃ peer, peer ≠ 0 ∧ a.peer = some peer) ∧ b.socket = a.socket

theorem chain_sockets {attempts : List Attempt} (h : attempts.IsChain Attempt.Next) :
    attempts.Pairwise (fun a b => a.socket ≤ b.socket) := by
  have hle : attempts.IsChain (fun a b => a.socket ≤ b.socket) := h.imp (fun a b hab => by
    rcases hab with ⟨_,_,hlt⟩ | ⟨_,_,heq⟩
    · exact Nat.le_of_lt hlt
    · exact Nat.le_of_eq heq.symm)
  exact hle.pairwise

theorem Request.Inv.sound {address : α} {s : Request α} (hs : s.Inv address) : s.Sound address := by
  obtain ⟨_,_,hchain,⟨pre,a,hlog,hsocket,hstanding⟩,hdelivered⟩ := hs
  have hlast : s.attempts.getLast? = some a := by rw [hlog,List.getLast?_concat]
  constructor
  · intro address' socket hd
    obtain ⟨haddress,rfl⟩ := hdelivered address' socket hd
    refine ⟨haddress,a,hlast,hsocket,?_⟩
    cases hstanding with
    | done _ _ _ ha => exact ha
    | refused hstage => simp [hd] at hstage
    | connected hpoll => simp [hd] at hpoll
    | renewing hpoll => simp [hd] at hpoll
    | retrying hpoll => simp [hd] at hpoll
  · intro hc
    refine ⟨a,hlast,hsocket,?_⟩
    cases hstanding with
    | done _ hcanceled => exact absurd hc hcanceled
    | refused _ herr _ hrenewed hchecked => exact ⟨herr,hrenewed,hchecked⟩
    | connected hpoll => simp [hc] at hpoll
    | renewing hpoll => simp [hc] at hpoll
    | retrying hpoll => simp [hc] at hpoll
  · intro b hb hretry hpeer
    rw [hlast,Option.mem_some] at hb
    subst hb
    cases hstanding with
    | done _ _ _ ha =>
      rcases ha with h0 | h0
      · simp [h0,renewed,checked,EINTR,ENETUNREACH,ETIMEDOUT,EINPROGRESS,EISCONN,EALREADY,
          ECONNREFUSED] at hretry
      · exact absurd h0 hpeer
    | refused _ _ _ hrenewed hchecked => exact absurd hretry (not_or.mpr ⟨hrenewed,hchecked⟩)
    | connected hpoll => exact hpoll
    | renewing hpoll => exact hpoll
    | retrying hpoll => exact hpoll
  · intro pre a b post hsplit
    rw [hsplit] at hchain
    have hnext := (List.isChain_append_cons_cons.mp hchain).2.1
    refine hnext.imp (fun hn => ⟨hn.1,fun x hx => ?_⟩) id
    have hsorted := chain_sockets hchain
    have hle : x.socket ≤ a.socket := by
      rcases List.mem_append.mp hx with hx | hx
      · exact (List.pairwise_append.mp hsorted).2.2 x hx a (List.mem_cons_self ..)
      · exact Nat.le_of_eq (by rw [List.mem_singleton.mp hx])
    exact Nat.lt_of_le_of_lt hle hn.2.2

/-- However the kernel answers, a request hands on a socket that is connected, gives
up only on an errno that it does not retry, and tries again as that errno asks. -/
theorem connector_sound (address : α) (err : Nat) (s : Request α)
    (hs : Path Request.step Any (connect address err) s) : s.Sound address :=
  (hs.keeps (fun _ _ _ _ he hi => hi.step he) (connect_inv address err)).sound

/-- No peer is found at first, then the socket times out, and the next one connects. -/
theorem connector_sound_renewed : ∃ s : Request Nat,
    s.stage = .delivered 80 1 ∧ s.attempts.map Attempt.socket = [0,0,1] ∧ s.Sound 80 := by
  have hrun : (run Request.step Any (connect 80 EINPROGRESS)
      [⟨0,107⟩,⟨ETIMEDOUT,0⟩,⟨0,0⟩,⟨0,0⟩,⟨0,0⟩,⟨0,0⟩]).any
      (fun s => s.stage = .delivered 80 1 ∧ s.attempts.map Attempt.socket = [0,0,1]) := by
    decide +kernel
  obtain ⟨s,hs,hcond⟩ := (Option.any_eq_true _ _).mp hrun
  obtain ⟨hstage,hsockets⟩ := of_decide_eq_true hcond
  exact ⟨s,hstage,hsockets,connector_sound 80 EINPROGRESS s (run_path hs)⟩

end Connector

end FluentNet
