import FluentNet.Library.Throwing
import FluentNet.Throws
set_option autoImplicit false

namespace FluentNet
open Throwing

/-- The kernel's answer to one `::write`: it takes a prefix of what it is
offered, or fails with an errno. -/
inductive WriteAnswer where
  | accepts (k : Nat)
  | fails (err : Nat)
  deriving DecidableEq, Repr

def WriteAnswer.taken (ans : WriteAnswer) (data : List UInt8) : List UInt8 :=
  match ans with
  | .accepts k => data.take k
  | .fails _ => []

def WriteAnswer.rest (ans : WriteAnswer) (data : List UInt8) : List UInt8 :=
  data.drop (ans.taken data).length

@[simp] theorem WriteAnswer.taken_append_rest (ans : WriteAnswer) (data : List UInt8) :
    ans.taken data ++ ans.rest data = data := by
  cases ans <;> simp [taken,rest,List.length_take]
  rename_i k
  by_cases hk : k ≤ data.length
  · rw [Nat.min_eq_left hk,List.take_append_drop]
  · rw [Nat.min_eq_right (by omega),List.take_of_length_le (by omega)]
    simp

theorem WriteAnswer.taken_length_le (ans : WriteAnswer) (data : List UInt8) :
    (ans.taken data).length ≤ data.length := by
  have h := congrArg List.length (ans.taken_append_rest data)
  simp only [List.length_append] at h
  omega

theorem WriteAnswer.rest_length (ans : WriteAnswer) (data : List UInt8) :
    (ans.rest data).length = data.length - (ans.taken data).length := by
  simp [rest]

theorem WriteAnswer.taken_of_full {ans : WriteAnswer} {data : List UInt8}
    (h : (ans.taken data).length = data.length) : ans.taken data = data := by
  have hr : ans.rest data = [] := List.eq_nil_of_length_eq_zero (by rw [rest_length]; omega)
  simpa [hr] using ans.taken_append_rest data

/-- `Socket::write` on a socket; the state is what the kernel has taken from it so far. -/
def Socket.write (buf : List UInt8) : WriteAnswer → Act Exn (List UInt8) Int
  | .accepts k => do
      Act.modify (fun wire => wire ++ buf.take k)
      pure (buf.take k).length
  | .fails err =>
      if err = EAGAIN ∨ err = EINTR then pure 0
      else Act.throw (.socketException err)

/-- An errno that `::write` may end in and that its callers do not turn into zero bytes. -/
def WriteAnswer.Fatal (ans : WriteAnswer) (err : Nat) : Prop :=
  ans = .fails err ∧ err ≠ EAGAIN ∧ err ≠ EINTR

theorem Socket.write_cases (buf : List UInt8) (ans : WriteAnswer) (wire : List UInt8) :
    (∃ err, ans.Fatal err ∧ Socket.write buf ans wire = (.error (.socketException err),wire)) ∨
    ((∀ err, ¬ans.Fatal err) ∧
      Socket.write buf ans wire = (.ok (ans.taken buf).length,wire ++ ans.taken buf)) := by
  cases ans with
  | accepts k => exact .inr ⟨by simp [WriteAnswer.Fatal],rfl⟩
  | fails err =>
    by_cases he : err = EAGAIN ∨ err = EINTR
    · refine .inr ⟨fun _ hf => ?_,by simp [Socket.write,he,WriteAnswer.taken]⟩
      obtain ⟨hf,h1,h2⟩ := hf
      cases hf
      exact he.elim h1 h2
    · refine .inl ⟨err,⟨rfl,?_⟩,by simp [Socket.write,he]⟩
      exact not_or.mp he

end FluentNet
