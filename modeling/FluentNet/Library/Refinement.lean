import FluentNet.Library.Runs
set_option autoImplicit false

/-!
Refinement of a labelled machine by an abstract one: one that takes the same labels
and always has a next state, or one that makes any number of steps for each of its.
-/

namespace Runs

variable {σ τ ℓ : Type}

/-- Every step that `C` allows keeps the two machines in `R`. -/
def Simulates (R : σ → τ → Prop) (step : σ → ℓ → Option σ) (C : σ → ℓ → Prop)
    (next : τ → ℓ → τ) : Prop :=
  ∀ s t l s', R s t → C s l → step s l = some s' → R s' (next t l)

variable {R : σ → τ → Prop} {step : σ → ℓ → Option σ} {C : σ → ℓ → Prop} {next : τ → ℓ → τ}

/-- A run of the concrete machine ends where the abstract one is after the same labels. -/
theorem Simulates.run [∀ s l, Decidable (C s l)] (h : Simulates R step C next)
    {s s' : σ} {t : τ} {ls : List ℓ} (hs : R s t) (hrun : Runs.run step C s ls = some s') :
    R s' (ls.foldl next t) := by
  induction ls generalizing s t with
  | nil =>
    cases hrun
    exact hs
  | cons l ls ih =>
    simp only [Runs.run] at hrun
    split at hrun
    · rename_i hl
      obtain ⟨u,hu,hrest⟩ := Option.bind_eq_some_iff.mp hrun
      exact ih (h s t l u hs hl hu) hrest
    · cases hrun

/-- Where each step of the concrete machine is a run of the abstract one, so are its runs. -/
theorem Path.simulated {κ : Type} {step' : τ → κ → Option τ} {D : τ → κ → Prop}
    (hstep : ∀ s l s' t, C s l → step s l = some s' → R s t → ∃ t', Path step' D t t' ∧ R s' t')
    {s s' : σ} {t : τ} (hrun : Path step C s s') (hs : R s t) : ∃ t', Path step' D t t' ∧ R s' t' := by
  induction hrun with
  | refl => exact ⟨t,.refl,hs⟩
  | tail _ hlast ih =>
    obtain ⟨u,hu,hR⟩ := ih
    obtain ⟨l,hl,he⟩ := hlast
    obtain ⟨t',ht',hR'⟩ := hstep _ l _ u hl he hR
    exact ⟨t',hu.trans ht',hR'⟩

end Runs
