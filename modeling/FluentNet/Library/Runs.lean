import Mathlib.Logic.Relation
set_option autoImplicit false

/-!
Runs of a labelled machine. A step is a partial function of the state and a
label; the label carries whatever the environment chose at that step.
-/

namespace Runs
open Relation

variable {σ ℓ : Type}

def Moves (step : σ → ℓ → Option σ) (C : σ → ℓ → Prop) (t u : σ) : Prop :=
  ∃ l, C t l ∧ step t l = some u

/-- The states reached from `s` by runs whose steps all meet `C`. -/
def Path (step : σ → ℓ → Option σ) (C : σ → ℓ → Prop) : σ → σ → Prop :=
  ReflTransGen (Moves step C)

def Any (_ : σ) (_ : ℓ) : Prop := True

instance (s : σ) (l : ℓ) : Decidable (Any s l) := .isTrue trivial

/-- Run through a list of labels; a label that is not allowed ends the run. -/
def run (step : σ → ℓ → Option σ) (C : σ → ℓ → Prop) [∀ s l, Decidable (C s l)] :
    σ → List ℓ → Option σ
  | s, [] => some s
  | s, l :: ls => if C s l then (step s l).bind (fun t => run step C t ls) else none

variable {step : σ → ℓ → Option σ} {C D : σ → ℓ → Prop}

theorem Path.keeps {I : σ → Prop}
    (hI : ∀ s l t, C s l → step s l = some t → I s → I t)
    {s t : σ} (h : Path step C s t) (hs : I s) : I t := by
  induction h with
  | refl => exact hs
  | tail _ hstep ih =>
    obtain ⟨l,hl,he⟩ := hstep
    exact hI _ l _ hl he ih

theorem Path.next {s t u : σ} {l : ℓ} (h : Path step C s t) (hl : C t l)
    (he : step t l = some u) : Path step C s u :=
  ReflTransGen.tail h ⟨l,hl,he⟩

theorem run_path [∀ s l, Decidable (C s l)] {s t : σ} {ls : List ℓ}
    (h : run step C s ls = some t) : Path step C s t := by
  induction ls generalizing s with
  | nil =>
    cases h
    exact .refl
  | cons l ls ih =>
    simp only [run] at h
    split at h
    · rename_i hl
      obtain ⟨u,hu,ht⟩ := Option.bind_eq_some_iff.mp h
      exact ReflTransGen.head ⟨l,hl,hu⟩ (ih ht)
    · cases h

theorem run_any (s : σ) (l : ℓ) (ls : List ℓ) :
    run step Any s (l :: ls) = (step s l).bind (fun t => run step Any t ls) :=
  if_pos trivial

theorem run_append [∀ s l, Decidable (C s l)] (s : σ) (ls ks : List ℓ) :
    run step C s (ls ++ ks) = (run step C s ls).bind (fun t => run step C t ks) := by
  induction ls generalizing s with
  | nil => rfl
  | cons l ls ih =>
    simp only [List.cons_append,run]
    split
    · rw [Option.bind_assoc]
      exact Option.bind_congr (fun t _ => ih t)
    · rfl

/-- A machine whose labels are written down: what each step preserves of the
labels so far and the state holds of every list that it accepts. -/
theorem run_induct [∀ s l, Decidable (C s l)] {I : List ℓ → σ → Prop}
    (hI : ∀ ls t l u, C t l → step t l = some u → I ls t → I (ls ++ [l]) u)
    {s t : σ} {pre ls : List ℓ} (hs : I pre s) (h : run step C s ls = some t) :
    I (pre ++ ls) t := by
  induction ls generalizing s pre with
  | nil =>
    cases h
    simpa using hs
  | cons l ls ih =>
    simp only [run] at h
    split at h
    · rename_i hl
      obtain ⟨u,hu,ht⟩ := Option.bind_eq_some_iff.mp h
      simpa using ih (hI pre s l u hl hu hs) ht
    · cases h

end Runs
