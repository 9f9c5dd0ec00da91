import Mathlib.Data.Nat.Notation
set_option autoImplicit false

/-!
A deterministic machine that emits. Its trace may have no end, so it is known by
its finite prefixes.
-/

namespace Emitter

variable {κ ε : Type} (next : κ → List ε × κ)

def after : Nat → κ → κ
  | 0, k => k
  | m+1, k => after m (next k).2

def emits : Nat → κ → List ε
  | 0, _ => []
  | m+1, k => (next k).1 ++ emits m (next k).2

def Halted (k : κ) : Prop := next k = ([],k)

/-- `trace` is a prefix of what the machine emits from `k`. -/
def Trails (k : κ) (trace : List ε) : Prop := ∃ m, trace <+: emits next m k

/-- `trace` is all that the machine emits from `k`. -/
def Completes (k : κ) (trace : List ε) : Prop :=
  ∃ m, emits next m k = trace ∧ Halted next (after next m k)

def Reaches (k : κ) (trace : List ε) (k' : κ) : Prop :=
  ∃ m, emits next m k = trace ∧ after next m k = k'

variable {next}

theorem emits_add (m n : Nat) (k : κ) :
    emits next (m+n) k = emits next m k ++ emits next n (after next m k) := by
  induction m generalizing k with
  | zero => simp [emits,after]
  | succ m ih => simp [Nat.succ_add,emits,after,ih,List.append_assoc]

theorem after_add (m n : Nat) (k : κ) : after next (m+n) k = after next n (after next m k) := by
  induction m generalizing k with
  | zero => simp [after]
  | succ m ih => simp [Nat.succ_add,after,ih]

theorem emits_halted {k : κ} (h : Halted next k) (m : Nat) : emits next m k = [] := by
  induction m with
  | zero => rfl
  | succ m ih => rw [emits,h,ih,List.append_nil]

theorem Reaches.refl (k : κ) : Reaches next k [] k := ⟨0,rfl,rfl⟩

theorem Reaches.step {k k' : κ} {trace : List ε} (h : Reaches next k trace k') :
    Reaches next k (trace ++ (next k').1) (next k').2 := by
  obtain ⟨m,rfl,rfl⟩ := h
  refine ⟨m+1,?_,?_⟩
  · rw [emits_add,emits,emits,List.append_nil]
  · rw [after_add,after,after]

theorem Reaches.completes {k k' : κ} {trace : List ε} (h : Reaches next k trace k')
    (hk : Halted next k') : Completes next k trace := by
  obtain ⟨m,he,rfl⟩ := h
  exact ⟨m,he,hk⟩

theorem Completes.longest {k : κ} {trace pre : List ε} (h : Completes next k trace)
    (hpre : Trails next k pre) : pre <+: trace := by
  obtain ⟨m,rfl,hm⟩ := h
  obtain ⟨n,hn⟩ := hpre
  refine hn.trans ?_
  by_cases hle : n ≤ m
  · obtain ⟨d,rfl⟩ := Nat.exists_eq_add_of_le hle
    rw [emits_add]
    exact List.prefix_append _ _
  · obtain ⟨d,rfl⟩ := Nat.exists_eq_add_of_le (Nat.le_of_not_le hle)
    have hend : emits next (m+d) k = emits next m k := by
      rw [emits_add,emits_halted hm,List.append_nil]
    exact hend ▸ List.prefix_refl _

end Emitter
