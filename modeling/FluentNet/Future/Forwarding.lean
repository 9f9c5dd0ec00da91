import FluentNet.Library.Runs
set_option autoImplicit false

/-!
What the functors of one future get to see of its value, and what they leave of it
for others. A move takes the value and leaves something else in its place.
-/

namespace FluentNet
namespace Future
open Runs

inductive ForwardType where
  | value | lvalue | rvalue
  deriving DecidableEq, Repr

/-- A functor and what it is passed to. A call gives its result and what it leaves
in its argument; a predicate of `poll` sees how often it has been called. -/
inductive Functor (α β : Type) where
  | andThen (f : α → β × α)
  | poll (f : α → Nat → Bool × α)
  | pollCount (count : Nat) (f : α → Nat → Bool × α)
  | cancelIf (f : α → Bool × α)

/-- What has become of the posted request: it is queued, `then` has passed on a
result, the promise has been set to the forwarded value, or it was cancelled. -/
inductive Outcome (α β : Type) where
  | queued
  | continued (result : β)
  | resolved (value : α)
  | canceled

/-- `shared` is the `_value` of the block; `received` are the arguments of the
functor, in order. -/
structure Forwarding (α β : Type) where
  shared : α
  received : List α
  outcome : Outcome α β

section Code
variable {α β γ : Type} (moved : α → α)

/-- `f(std::forward<ForwardType>(value))`: a `T` is made from the value by a move. -/
def ForwardType.call (k : ForwardType) (f : α → γ × α) (value : α) : γ × α :=
  match k with
  | .value => ((f value).1,moved value)
  | .lvalue | .rvalue => f value

/-- `promise.setValue(std::forward<ForwardType>(value))`: what the promise is set
to, and what is left. -/
def ForwardType.give (k : ForwardType) (value : α) : α × α :=
  match k with
  | .lvalue => (value,value)
  | .value | .rvalue => (value,moved value)

namespace Forwarding

def start (value : α) : Forwarding α β := ⟨value,[],.queued⟩

def setValue (k : ForwardType) (s : Forwarding α β) : Forwarding α β :=
  let (value,left) := k.give moved s.shared
  { s with shared := left, outcome := .resolved value }

def called (s : Forwarding α β) (left : α) : Forwarding α β :=
  { s with shared := left, received := s.received ++ [s.shared] }

def pollOnce (k : ForwardType) (f : α → Nat → Bool × α) (s : Forwarding α β) : Forwarding α β :=
  let (stop,left) := k.call moved (fun a => f a s.received.length) s.shared
  if stop then (s.called left).setValue moved k else s.called left

def resume (k : ForwardType) (functor : Functor α β) (s : Forwarding α β) : Forwarding α β :=
  match functor with
  | .andThen f =>
      let (result,left) := k.call moved f s.shared
      { s.called left with outcome := .continued result }
  | .poll f => s.pollOnce moved k f
  | .pollCount count f =>
      if count-s.received.length = 0 then s.setValue moved k else s.pollOnce moved k f
  | .cancelIf f =>
      let (stop,left) := k.call moved f s.shared
      if stop then { s.called left with outcome := .canceled } else (s.called left).setValue moved k

def step (k : ForwardType) (functor : Functor α β) (s : Forwarding α β) (_ : Unit) :
    Option (Forwarding α β) :=
  match s.outcome with
  | .queued => some (s.resume moved k functor)
  | _ => none

/-- Every call gets the value, so does the next future, and once a continuation has
run the value is there for `whenAll` and `whenN` to copy. -/
structure Transparent (value : α) (s : Forwarding α β) : Prop where
  received : ∀ a ∈ s.received, a = value
  resolved : ∀ a, s.outcome = .resolved a → a = value
  kept : ∀ result, s.outcome = .continued result → s.shared = value

end Forwarding

def Functor.Unmutating : Functor α β → Prop
  | .andThen f => ∀ a, (f a).2 = a
  | .poll f | .pollCount _ f => ∀ a calls, (f a calls).2 = a
  | .cancelIf f => ∀ a, (f a).2 = a

def ForwardType.Admits (k : ForwardType) (functor : Functor α β) : Prop :=
  match k with
  | .value => True
  | .lvalue => functor.Unmutating
  | .rvalue => False

/-- The functor is not called, or the value is not needed after its one call. -/
def Functor.Once (value : α) : Functor α β → Prop
  | .andThen _ | .poll _ => False
  | .pollCount count _ => count = 0
  | .cancelIf f => (f value).1 = true

section Steps
variable {moved : α → α} {k : ForwardType} {functor : Functor α β} {value : α} {s t : Forwarding α β}

structure ForwardType.Leaves (moved : α → α) (k : ForwardType) (functor : Functor α β) (value : α) :
    Prop where
  admits : k.Admits functor
  left : k = .lvalue ∨ moved value = value

theorem ForwardType.Leaves.ne_rvalue (h : k.Leaves moved functor value) : k ≠ .rvalue := by
  rintro rfl
  exact h.admits

theorem ForwardType.Leaves.call (h : k.Leaves moved functor value) {f : α → γ × α}
    (hf : k = .lvalue → (f value).2 = value) : (k.call moved f value).2 = value := by
  have hk := h.ne_rvalue
  have hl := h.left
  cases k with
  | value => exact hl.resolve_left (by decide)
  | lvalue => exact hf rfl
  | rvalue => exact absurd rfl hk

structure Forwarding.Safe (value : α) (s : Forwarding α β) : Prop where
  transparent : s.Transparent value
  shared : s.outcome = .queued → s.shared = value

theorem start_safe (value : α) : (Forwarding.start value : Forwarding α β).Safe value := by
  refine ⟨⟨?_,fun a h => ?_,fun r h => ?_⟩,fun _ => rfl⟩
  · simp [Forwarding.start]
  · cases h
  · cases h

theorem Forwarding.Safe.received (hs : s.Safe value) (hq : s.outcome = .queued) :
    ∀ a ∈ s.received ++ [s.shared], a = value := by
  intro a ha
  rcases List.mem_append.mp ha with ha | ha
  · exact hs.transparent.received a ha
  · rw [List.mem_singleton.mp ha,hs.shared hq]

theorem Forwarding.Safe.called (hs : s.Safe value) (hq : s.outcome = .queued) {left : α}
    (hleft : left = value) : (s.called left).Safe value := by
  refine ⟨⟨hs.received hq,fun a h => ?_,fun r h => ?_⟩,fun _ => hleft⟩
  · rw [Forwarding.called,hq] at h
    cases h
  · rw [Forwarding.called,hq] at h
    cases h

theorem Forwarding.Safe.setValue (hs : s.Safe value) (hq : s.outcome = .queued) :
    (s.setValue moved k).Safe value := by
  have hv : (k.give moved s.shared).1 = value := by
    rw [← hs.shared hq]
    cases k <;> rfl
  refine ⟨⟨hs.transparent.received,fun a h => ?_,fun r h => ?_⟩,fun h => ?_⟩
  · cases h
    exact hv
  · cases h
  · cases h

theorem ForwardType.Leaves.pollOnce (h : k.Leaves moved functor value) (hs : s.Safe value)
    (hq : s.outcome = .queued) {f : α → Nat → Bool × α}
    (hf : k = .lvalue → ∀ a calls, (f a calls).2 = a) : (s.pollOnce moved k f).Safe value := by
  have hleft : (k.call moved (fun a => f a s.received.length) s.shared).2 = value := by
    rw [hs.shared hq]
    exact h.call (fun hk => hf hk _ _)
  simp only [Forwarding.pollOnce]
  split
  · exact (hs.called hq hleft).setValue hq
  · exact hs.called hq hleft

theorem ForwardType.Leaves.resume (h : k.Leaves moved functor value) (hs : s.Safe value)
    (hq : s.outcome = .queued) : (s.resume moved k functor).Safe value := by
  have hpure : k = .lvalue → functor.Unmutating := by
    rintro rfl
    exact h.admits
  cases functor with
  | andThen f =>
    have hleft : (k.call moved f s.shared).2 = value := by
      rw [hs.shared hq]
      exact h.call (fun hk => hpure hk _)
    refine ⟨⟨hs.received hq,fun a ha => ?_,fun _ _ => hleft⟩,fun hout => ?_⟩
    · cases ha
    · cases hout
  | poll f => exact h.pollOnce hs hq hpure
  | pollCount count f =>
    simp only [Forwarding.resume]
    split
    · exact hs.setValue hq
    · exact h.pollOnce hs hq hpure
  | cancelIf f =>
    have hleft : (k.call moved f s.shared).2 = value := by
      rw [hs.shared hq]
      exact h.call (fun hk => hpure hk _)
    simp only [Forwarding.resume]
    split
    · refine ⟨⟨hs.received hq,fun a ha => ?_,fun r hr => ?_⟩,fun hout => ?_⟩
      · cases ha
      · cases hr
      · cases hout
    · exact (hs.called hq hleft).setValue hq

theorem Functor.Once.resume (h : functor.Once value) (hs : s.Safe value) (hq : s.outcome = .queued) :
    (s.resume moved .value functor).Safe value := by
  cases functor with
  | andThen f => exact h.elim
  | poll f => exact h.elim
  | pollCount count f =>
    have h0 : count = 0 := h
    simp only [Forwarding.resume,h0,Nat.zero_sub,if_true]
    exact hs.setValue hq
  | cancelIf f =>
    have hstop : (f value).1 = true := h
    simp only [Forwarding.resume,ForwardType.call,hs.shared hq,hstop,if_true]
    refine ⟨⟨?_,fun a ha => ?_,fun r hr => ?_⟩,fun hout => ?_⟩
    · exact hs.shared hq ▸ hs.received hq
    · cases ha
    · cases hr
    · cases hout

theorem safe_transparent
    (h : ∀ s : Forwarding α β, s.Safe value → s.outcome = .queued → (s.resume moved k functor).Safe value)
    (hrun : Path (Forwarding.step moved k functor) Any (.start value) s) : s.Transparent value := by
  refine (hrun.keeps (fun s l t _ hstep hs => ?_) (start_safe value)).transparent
  unfold Forwarding.step at hstep
  split at hstep
  · rename_i hq
    cases hstep
    exact h s hs hq
  · cases hstep

section Taking
variable (hm : moved value ≠ value)
include hm

theorem setValue_taken (hs : s.shared = moved value) : ¬(s.setValue moved k).Transparent value := by
  intro ht
  refine hm (ht.resolved _ ?_)
  rw [Forwarding.setValue]
  cases k <;> exact congrArg Outcome.resolved hs

theorem pollOnce_taken {f : α → Nat → Bool × α} (hs : s.shared = moved value) :
    ¬(s.pollOnce moved k f).Transparent value := by
  intro ht
  refine hm (ht.received _ ?_)
  simp only [Forwarding.pollOnce,← hs]
  split <;> exact List.mem_append_right _ (List.mem_singleton_self _)

theorem pollOnce_goes_on {f : α → Nat → Bool × α}
    (ht : ((Forwarding.start value : Forwarding α β).pollOnce moved .value f).Transparent value) :
    (Forwarding.start value : Forwarding α β).pollOnce moved .value f =
      (Forwarding.start value).called (moved value) := by
  simp only [Forwarding.pollOnce] at ht ⊢
  split
  · rename_i hstop
    rw [if_pos hstop] at ht
    exact absurd ht (setValue_taken hm rfl)
  · rfl

theorem taken (functor : Functor α β) (hn : ¬functor.Once value) : ∃ t : Forwarding α β,
    Path (Forwarding.step moved .value functor) Any (.start value) t ∧ ¬t.Transparent value := by
  refine Classical.byContradiction (fun hno => ?_)
  have hall : ∀ t, Path (Forwarding.step moved .value functor) Any (.start value) t →
      t.Transparent value :=
    fun t hrun => Classical.byContradiction (fun ht => hno ⟨t,hrun,ht⟩)
  have hfirst : Path (Forwarding.step moved .value functor) Any (.start value)
      ((Forwarding.start value).resume moved .value functor) := Path.next .refl trivial (l := ()) rfl
  have ht := hall _ hfirst
  -- a poll that has called once, and what its next turn makes of it
  have hagain : (Forwarding.start value).resume moved .value functor =
      (Forwarding.start value).called (moved value) →
      (((Forwarding.start value).called (moved value)).resume moved .value functor).Transparent value := by
    intro h1
    rw [h1] at hfirst
    exact hall _ (hfirst.next trivial (l := ()) rfl)
  cases functor with
  | andThen f => exact hm (ht.kept _ rfl)
  | poll f =>
    have hnext := hagain (pollOnce_goes_on hm ht)
    rw [Forwarding.resume] at hnext
    exact pollOnce_taken (s := (Forwarding.start value).called (moved value)) hm rfl hnext
  | pollCount count f =>
    have h0 : count-0 ≠ 0 := hn
    have hcall : (Forwarding.start value : Forwarding α β).resume moved .value (.pollCount count f) =
        (Forwarding.start value).pollOnce moved .value f := if_neg h0
    rw [hcall] at ht hagain
    have hnext := hagain (pollOnce_goes_on hm ht)
    rw [Forwarding.resume] at hnext
    split at hnext
    · exact setValue_taken (s := (Forwarding.start value).called (moved value)) hm rfl hnext
    · exact pollOnce_taken (s := (Forwarding.start value).called (moved value)) hm rfl hnext
  | cancelIf f =>
    have hcall : (Forwarding.start value : Forwarding α β).resume moved .value (.cancelIf f) =
        ((Forwarding.start value).called (moved value)).setValue moved .value := if_neg hn
    rw [hcall] at ht
    exact setValue_taken (s := (Forwarding.start value).called (moved value)) hm rfl ht

end Taking

end Steps

/-- Functors see the value throughout just when the move leaves it in place, the
functor takes a reference, or the functor is not called again and nothing is forwarded. -/
theorem transparent_iff_left (moved : α → α) (k : ForwardType) (functor : Functor α β) (value : α)
    (h : k.Admits functor) :
    (∀ s, Path (Forwarding.step moved k functor) Any (.start value) s → s.Transparent value) ↔
      k = .lvalue ∨ moved value = value ∨ functor.Once value := by
  refine ⟨fun hall => ?_,fun hcond s hrun => ?_⟩
  · refine Classical.byContradiction (fun hcond => ?_)
    obtain ⟨hk,hrest⟩ := not_or.mp hcond
    obtain ⟨hm,hn⟩ := not_or.mp hrest
    cases k with
    | value =>
      obtain ⟨t,hrun,ht⟩ := taken hm functor hn
      exact ht (hall t hrun)
    | lvalue => exact hk rfl
    | rvalue => exact h
  · rcases hcond with hk | hm | honce
    · exact safe_transparent (fun s hs hq => ForwardType.Leaves.resume ⟨h,.inl hk⟩ hs hq) hrun
    · exact safe_transparent (fun s hs hq => ForwardType.Leaves.resume ⟨h,.inr hm⟩ hs hq) hrun
    · cases k with
      | value => exact safe_transparent (fun s hs hq => honce.resume hs hq) hrun
      | lvalue => exact safe_transparent (fun s hs hq => ForwardType.Leaves.resume ⟨h,.inl rfl⟩ hs hq) hrun
      | rvalue => exact h.elim

end Code

section Vectors

def emptied (_ : List Nat) : List Nat := []

def third : Functor (List Nat) Unit := .poll (fun a calls => (calls == 2,a))

theorem transparent_iff_left_lvalue :
    (∀ s, Path (Forwarding.step emptied .lvalue third) Any (.start [1,2]) s →
      s.Transparent [1,2]) ↔
      (ForwardType.lvalue = .lvalue ∨ emptied [1,2] = [1,2] ∨ third.Once [1,2]) :=
  transparent_iff_left emptied .lvalue third [1,2] (fun _ _ => rfl)

theorem value_taken : ¬∀ (moved : List Nat → List Nat) (k : ForwardType)
    (functor : Functor (List Nat) Unit) (value : List Nat), k.Admits functor →
      ∀ s, Path (Forwarding.step moved k functor) Any (.start value) s → s.Transparent value := by
  intro hall
  have hm : emptied [1,2] ≠ [1,2] := by decide
  let keep : Functor (List Nat) Unit := .andThen (fun a => ((),a))
  obtain ⟨s,hrun,hs⟩ := taken hm keep id
  exact hs (hall emptied .value _ [1,2] trivial s hrun)

end Vectors

end Future
end FluentNet
