import Mathlib.Logic.Relation
set_option autoImplicit false

/-!
Computations that read and change a state and either return or throw. A throw
keeps the changes made before it, as in a language with exceptions and mutable
objects. The rules below carry an invariant, or a step relation, through a
computation whichever way it ends.
-/

namespace Throwing

def Act (ε σ α : Type) : Type := σ → Except ε α × σ

variable {ε σ τ α β : Type}

namespace Act

def pure (a : α) : Act ε σ α := fun s => (.ok a,s)

def bind (m : Act ε σ α) (f : α → Act ε σ β) : Act ε σ β := fun s =>
  match m s with
  | (.ok a,t) => f a t
  | (.error e,t) => (.error e,t)

instance : Monad (Act ε σ) where
  pure := Act.pure
  bind := Act.bind

def get : Act ε σ σ := fun s => (.ok s,s)
def modify (f : σ → σ) : Act ε σ Unit := fun s => (.ok (),f s)
def throw (e : ε) : Act ε σ α := fun s => (.error e,s)

def attempt (m : Act ε σ α) (h : ε → Act ε σ α) : Act ε σ α := fun s =>
  match m s with
  | (.ok a,t) => (.ok a,t)
  | (.error e,t) => h e t

def onlyIf (c : Prop) [Decidable c] (m : Act ε σ Unit) : Act ε σ Unit :=
  if c then m else Act.pure ()

/-- Run a computation on one component of a larger state. -/
def zoom (read : σ → τ) (write : σ → τ → σ) (m : Act ε τ α) : Act ε σ α := fun s =>
  let (r,t) := m (read s)
  (r,write s t)

/-- Run a list of computations from left to right; the first throw ends the run. -/
def each (f : β → Act ε σ Unit) : List β → Act ε σ Unit
  | [] => Pure.pure ()
  | b :: bs => f b >>= fun _ => each f bs

@[simp] theorem pure_apply (a : α) (s : σ) : (Pure.pure a : Act ε σ α) s = (.ok a,s) := rfl

theorem bind_apply (m : Act ε σ α) (f : α → Act ε σ β) (s : σ) :
    (m >>= f) s = match m s with
      | (.ok a,t) => f a t
      | (.error e,t) => (.error e,t) := rfl

@[simp] theorem get_bind (f : σ → Act ε σ β) (s : σ) : (get >>= f) s = f s s := rfl

@[simp] theorem modify_bind (g : σ → σ) (f : Unit → Act ε σ β) (s : σ) :
    (modify g >>= f) s = f () (g s) := rfl

@[simp] theorem throw_bind (e : ε) (f : α → Act ε σ β) (s : σ) :
    (throw e >>= f) s = (.error e,s) := rfl

@[simp] theorem modify_apply (g : σ → σ) (s : σ) :
    (modify g : Act ε σ Unit) s = (.ok (),g s) := rfl

@[simp] theorem throw_apply (e : ε) (s : σ) : (throw e : Act ε σ α) s = (.error e,s) := rfl

@[simp] theorem onlyIf_true {c : Prop} [Decidable c] (h : c) (m : Act ε σ Unit) :
    onlyIf c m = m := if_pos h

@[simp] theorem onlyIf_false {c : Prop} [Decidable c] (h : ¬c) (m : Act ε σ Unit) :
    onlyIf c m = Pure.pure () := if_neg h

theorem bind_of_ok {m : Act ε σ α} {f : α → Act ε σ β} {s t : σ} {a : α}
    (h : m s = (.ok a,t)) : (m >>= f) s = f a t := by
  rw [bind_apply,h]

theorem bind_of_error {m : Act ε σ α} {f : α → Act ε σ β} {s t : σ} {e : ε}
    (h : m s = (.error e,t)) : (m >>= f) s = (.error e,t) := by
  rw [bind_apply,h]

theorem zoom_apply {read : σ → τ} {write : σ → τ → σ} {m : Act ε τ α} (s : σ) :
    zoom read write m s = ((m (read s)).1,write s (m (read s)).2) := rfl

theorem attempt_returns {m : Act ε σ α} {h : ε → Act ε σ α} (hh : ∀ e t, ∃ a, (h e t).1 = .ok a)
    (s : σ) : ∃ a, (attempt m h s).1 = .ok a := by
  unfold attempt
  cases m s with
  | mk res t =>
    cases res with
    | ok a => exact ⟨a,rfl⟩
    | error e => exact hh e t

end Act

open Act Relation

theorem bind_holds {I : σ → Prop} {m : Act ε σ α} {f : α → Act ε σ β} {s : σ}
    (hm : I (m s).2) (hf : ∀ a t, m s = (.ok a,t) → I t → I (f a t).2) :
    I ((m >>= f) s).2 := by
  rw [bind_apply]
  cases hr : m s with
  | mk res t =>
    rw [hr] at hm
    cases res with
    | error e => exact hm
    | ok a => exact hf a t hr hm

theorem bind_keeps {I : σ → Prop} {m : Act ε σ α} {f : α → Act ε σ β} {s : σ}
    (hm : I (m s).2) (hf : ∀ a t, I t → I (f a t).2) : I ((m >>= f) s).2 :=
  bind_holds hm (fun a t _ => hf a t)

theorem attempt_keeps {I : σ → Prop} {m : Act ε σ α} {h : ε → Act ε σ α} {s : σ}
    (hm : I (m s).2) (hh : ∀ e t, I t → I (h e t).2) : I (attempt m h s).2 := by
  unfold attempt
  cases hr : m s with
  | mk res t =>
    rw [hr] at hm
    cases res with
    | ok a => exact hm
    | error e => exact hh e t hm

/-- Every run of `m`, returned or thrown, is a path of `r`. -/
def Follows (r : σ → σ → Prop) (m : Act ε σ α) : Prop :=
  ∀ s, ReflTransGen r s (m s).2

section Follows
variable {r : σ → σ → Prop}

theorem Follows.pure (a : α) : Follows r (Pure.pure a : Act ε σ α) := fun _ => .refl

theorem Follows.throw (e : ε) : Follows r (Act.throw e : Act ε σ α) := fun _ => .refl

theorem Follows.modify {f : σ → σ} (h : ∀ s, r s (f s)) :
    Follows r (Act.modify f : Act ε σ Unit) := fun s => .single (h s)

theorem bind_path {m : Act ε σ α} {f : α → Act ε σ β} {s : σ}
    (hm : ReflTransGen r s (m s).2)
    (hf : ∀ a t, m s = (.ok a,t) → ReflTransGen r t (f a t).2) :
    ReflTransGen r s ((m >>= f) s).2 :=
  bind_holds hm (fun a t hr ht => ht.trans (hf a t hr))

theorem Follows.bind {m : Act ε σ α} {f : α → Act ε σ β}
    (hm : Follows r m) (hf : ∀ a, Follows r (f a)) : Follows r (m >>= f) :=
  fun s => bind_path (hm s) (fun a t _ => hf a t)

theorem Follows.get_bind {f : σ → Act ε σ β} (hf : ∀ a, Follows r (f a)) :
    Follows r (Act.get >>= f) := fun s => hf s s

theorem attempt_path {m : Act ε σ α} {h : ε → Act ε σ α} {s : σ}
    (hm : ReflTransGen r s (m s).2) (hh : ∀ e, Follows r (h e)) :
    ReflTransGen r s (Act.attempt m h s).2 :=
  attempt_keeps hm (fun e t ht => ht.trans (hh e t))

theorem Follows.attempt {m : Act ε σ α} {h : ε → Act ε σ α}
    (hm : Follows r m) (hh : ∀ e, Follows r (h e)) : Follows r (Act.attempt m h) :=
  fun s => attempt_path (hm s) hh

theorem Follows.onlyIf {c : Prop} [Decidable c] {m : Act ε σ Unit} (hm : c → Follows r m) :
    Follows r (Act.onlyIf c m) := by
  by_cases h : c
  · simpa [h] using hm h
  · simpa [h] using Follows.pure ()

theorem Follows.each {f : β → Act ε σ Unit} (hf : ∀ b, Follows r (f b)) (bs : List β) :
    Follows r (Act.each f bs) := by
  induction bs with
  | nil => exact Follows.pure ()
  | cons b bs ih => exact (hf b).bind (fun _ => ih)

end Follows

theorem path_keeps {r : σ → σ → Prop} {I : σ → Prop} (hI : ∀ s t, r s t → I s → I t)
    {s t : σ} (h : ReflTransGen r s t) (hs : I s) : I t := by
  induction h with
  | refl => exact hs
  | tail _ hstep ih => exact hI _ _ hstep ih

def Keeps (I : σ → Prop) (s t : σ) : Prop := I s → I t

theorem Follows.keeps_inv {I : σ → Prop} {m : Act ε σ α} (hm : Follows (Keeps I) m) {s : σ}
    (hs : I s) : I (m s).2 :=
  path_keeps (fun _ _ h => h) (hm s) hs

theorem Follows.of_keeps {I : σ → Prop} {m : Act ε σ α} (h : ∀ s, I s → I (m s).2) :
    Follows (Keeps I) m := fun s => .single (h s)

section Tracks
variable {p : σ → τ}

/-- On what `p` shows of the state, `m` does what `n` does. -/
def Tracks (p : σ → τ) (m : Act ε σ α) (n : Act ε τ α) : Prop := ∀ s, n (p s) = ((m s).1,p (m s).2)

theorem Tracks.pure (a : α) : Tracks p (Pure.pure a : Act ε σ α) (Pure.pure a) := fun _ => rfl

theorem Tracks.modify {f : σ → σ} (h : ∀ s, p (f s) = p s) {m : Act ε σ α} {n : Act ε τ α}
    (hm : Tracks p m n) : Tracks p (Act.modify f >>= fun _ => m) n := fun s => by
  rw [modify_bind,← hm (f s),h]

theorem Tracks.zoom {write : σ → τ → σ} (h : ∀ s t, p (write s t) = t) (n : Act ε τ α) :
    Tracks p (Act.zoom p write n) n := fun s => by rw [zoom_apply,h]

theorem Tracks.bind {m : Act ε σ α} {n : Act ε τ α} {f : α → Act ε σ β} {g : α → Act ε τ β}
    (hm : Tracks p m n) (hf : ∀ a, Tracks p (f a) (g a)) : Tracks p (m >>= f) (n >>= g) := by
  intro s
  rw [bind_apply,bind_apply,hm s]
  cases m s with
  | mk res t =>
    cases res with
    | ok a => exact hf a t
    | error e => rfl

theorem Tracks.attempt {m : Act ε σ α} {n : Act ε τ α} {f : ε → Act ε σ α} {g : ε → Act ε τ α}
    (hm : Tracks p m n) (hf : ∀ e, Tracks p (f e) (g e)) : Tracks p (attempt m f) (attempt n g) := by
  intro s
  simp only [Act.attempt,hm s]
  cases m s with
  | mk res t =>
    cases res with
    | ok a => rfl
    | error e => exact hf e t

theorem Tracks.onlyIf {c : Prop} [Decidable c] {m : Act ε σ Unit} {n : Act ε τ Unit} (hm : Tracks p m n) :
    Tracks p (onlyIf c m) (onlyIf c n) := by
  by_cases h : c
  · simpa [h] using hm
  · simpa [h] using Tracks.pure ()

end Tracks

end Throwing
