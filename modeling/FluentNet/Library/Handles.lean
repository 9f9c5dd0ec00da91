import FluentNet.Library.Placement
import Mathlib.Data.List.Nodup
import Mathlib.Logic.Equiv.Basic
set_option autoImplicit false

/-!
Handles and the places that hold them. A handle is opened into a place, goes from
place to place and is closed where it is dropped. In a tight custody what is open is
what is held, in one place each, and nothing was closed that was not open.
-/

namespace Handles
open Placement

variable {π κ : Type}

structure Custody (π κ : Type) where
  holds : π → Option κ
  opened : List κ
  /-- the closes of handles that were not open -/
  stray : List κ

namespace Custody
variable [DecidableEq π]

def acquire (s : Custody π κ) (p : π) (k : κ) : Custody π κ :=
  { s with holds := Function.update s.holds p (some k), opened := k :: s.opened }

def swap (s : Custody π κ) (p q : π) : Custody π κ := { s with holds := s.holds ∘ Equiv.swap p q }

variable [DecidableEq κ]

def drop (s : Custody π κ) (p : π) : Custody π κ :=
  match s.holds p with
  | none => s
  | some k =>
      let holds := Function.update s.holds p none
      if k ∈ s.opened then { s with holds, opened := s.opened.erase k }
      else { s with holds, stray := s.stray ++ [k] }

def dropAll (s : Custody π κ) (ps : List π) : Custody π κ := ps.foldl drop s

end Custody

structure Tight (s : Custody π κ) : Prop where
  placed : Placed s.holds
  nodup : s.opened.Nodup
  held : ∀ k, k ∈ s.opened ↔ ∃ p, s.holds p = some k
  stray : s.stray = []

section Drop
variable [DecidableEq π] [DecidableEq κ] (s : Custody π κ) (p : π)

theorem drop_of_none {p : π} (h : s.holds p = none) : s.drop p = s := by
  simp [Custody.drop,h]

theorem drop_of_open {p : π} {k : κ} (hp : s.holds p = some k) (hk : k ∈ s.opened) :
    s.drop p = { s with holds := Function.update s.holds p none, opened := s.opened.erase k } := by
  simp [Custody.drop,hp,hk]

theorem drop_holds : (s.drop p).holds = Function.update s.holds p none := by
  cases hp : s.holds p with
  | none => rw [drop_of_none s hp,← hp,Function.update_eq_self]
  | some k =>
    simp only [Custody.drop,hp]
    split <;> rfl

theorem dropAll_holds (ps : List π) (q : π) :
    (s.dropAll ps).holds q = if q ∈ ps then none else s.holds q := by
  induction ps generalizing s with
  | nil => simp [Custody.dropAll]
  | cons p ps ih =>
    have hstep : s.dropAll (p :: ps) = (s.drop p).dropAll ps := rfl
    rw [hstep,ih,drop_holds]
    by_cases hq : q = p
    · simp [hq]
    · simp [hq]

end Drop

section Tight
variable {s : Custody π κ}

theorem empty_tight : Tight (⟨fun _ => none,[],[]⟩ : Custody π κ) :=
  ⟨by simp [Placed],.nil,by simp,rfl⟩

theorem Tight.owner (h : Tight s) {k : κ} (hk : k ∈ s.opened) : ∃! p, s.holds p = some k := by
  obtain ⟨p,hp⟩ := (h.held k).mp hk
  exact ⟨p,hp,fun q hq => h.placed q p k hq hp⟩

theorem Tight.open_of_held (h : Tight s) {p : π} {k : κ} (hp : s.holds p = some k) : k ∈ s.opened :=
  (h.held k).mpr ⟨p,hp⟩

variable [DecidableEq π]

theorem Tight.acquire (h : Tight s) {p : π} {k : κ} (hp : s.holds p = none) (hk : k ∉ s.opened) :
    Tight (s.acquire p k) := by
  have hnew : ∀ q, s.holds q ≠ some k := fun q hq => hk (h.open_of_held hq)
  refine ⟨h.placed.fill hnew,List.nodup_cons.mpr ⟨hk,h.nodup⟩,fun j => ?_,h.stray⟩
  simp only [Custody.acquire,List.mem_cons,h.held]
  constructor
  · rintro (rfl | ⟨q,hq⟩)
    · exact ⟨p,Function.update_self ..⟩
    · refine ⟨q,?_⟩
      rw [Function.update_of_ne (by rintro rfl; simp [hp] at hq)]
      exact hq
  · rintro ⟨q,hq⟩
    by_cases hqp : q = p
    · subst hqp
      rw [Function.update_self] at hq
      exact .inl (Option.some.inj hq).symm
    · rw [Function.update_of_ne hqp] at hq
      exact .inr ⟨q,hq⟩

theorem Tight.swap (h : Tight s) (p q : π) : Tight (s.swap p q) := by
  refine ⟨fun a b k ha hb => (Equiv.swap p q).injective (h.placed _ _ k ha hb),h.nodup,fun k => ?_,h.stray⟩
  rw [Custody.swap,h.held]
  constructor
  · rintro ⟨a,ha⟩
    exact ⟨Equiv.swap p q a,by simpa using ha⟩
  · rintro ⟨a,ha⟩
    exact ⟨_,ha⟩

variable [DecidableEq κ]

theorem Tight.drop_opened (h : Tight s) (p : π) (k : κ) :
    k ∈ (s.drop p).opened ↔ k ∈ s.opened ∧ s.holds p ≠ some k := by
  cases hp : s.holds p with
  | none => simp [drop_of_none s hp]
  | some j =>
    rw [drop_of_open s hp (h.open_of_held hp)]
    simp only [h.nodup.mem_erase_iff,ne_eq,Option.some.injEq]
    rw [and_comm,eq_comm]

theorem Tight.drop (h : Tight s) (p : π) : Tight (s.drop p) := by
  cases hp : s.holds p with
  | none => rwa [drop_of_none s hp]
  | some j =>
    have hopened := h.drop_opened p
    rw [drop_of_open s hp (h.open_of_held hp)] at hopened ⊢
    refine ⟨h.placed.clear p,h.nodup.erase j,fun k => ?_,h.stray⟩
    rw [hopened,h.held]
    dsimp only
    constructor
    · rintro ⟨⟨q,hq⟩,hne⟩
      refine ⟨q,?_⟩
      rwa [Function.update_of_ne (by rintro rfl; exact hne hq)]
    · rintro ⟨q,hq⟩
      by_cases hqp : q = p
      · subst hqp
        simp at hq
      · rw [Function.update_of_ne hqp] at hq
        exact ⟨⟨q,hq⟩,fun hpk => hqp (h.placed q p k hq hpk)⟩

theorem Tight.dropAll (h : Tight s) (ps : List π) : Tight (s.dropAll ps) := by
  induction ps generalizing s with
  | nil => exact h
  | cons p ps ih => exact ih (h.drop p)

theorem Tight.dropAll_opened (h : Tight s) (ps : List π) (k : κ) :
    k ∈ (s.dropAll ps).opened ↔ k ∈ s.opened ∧ ∀ p ∈ ps, s.holds p ≠ some k := by
  rw [(h.dropAll ps).held]
  simp only [dropAll_holds]
  constructor
  · rintro ⟨q,hq⟩
    split at hq
    · cases hq
    · rename_i hnot
      exact ⟨h.open_of_held hq,fun p hp hk => hnot (h.placed p q k hk hq ▸ hp)⟩
  · rintro ⟨hk,hps⟩
    obtain ⟨q,hq⟩ := (h.held k).mp hk
    exact ⟨q,by rw [if_neg (fun hmem => hps q hmem hq)]; exact hq⟩

theorem Tight.dropAll_closes (h : Tight s) {ps : List π} {k : κ} (hk : k ∈ s.opened)
    (hclosed : k ∉ (s.dropAll ps).opened) : ∃ p ∈ ps, s.holds p = some k := by
  rw [h.dropAll_opened] at hclosed
  by_contra hnone
  exact hclosed ⟨hk,fun p hp hpk => hnone ⟨p,hp,hpk⟩⟩

theorem Tight.drop_closes (h : Tight s) {p : π} {k : κ} (hk : k ∈ s.opened)
    (hclosed : k ∉ (s.drop p).opened) : s.holds p = some k := by
  have hone : k ∉ (s.dropAll [p]).opened := hclosed
  obtain ⟨q,hq,hqk⟩ := h.dropAll_closes hk hone
  exact List.mem_singleton.mp hq ▸ hqk

theorem Tight.dropAll_stays (h : Tight s) {ps : List π} {p : π} {k : κ} (hp : s.holds p = some k)
    (hk : k ∈ (s.dropAll ps).opened) : (s.dropAll ps).holds p = some k := by
  have hkept := ((h.dropAll_opened ps k).mp hk).2
  rw [dropAll_holds,if_neg (fun hmem => hkept p hmem hp)]
  exact hp

end Tight

end Handles
