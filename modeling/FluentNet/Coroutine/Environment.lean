import FluentNet.Library.Placement
import FluentNet.Library.Runs
import Mathlib.Data.List.Chain
set_option autoImplicit false

/-!
The coroutines of one thread: who has resumed whom, and which `Context` each runs
on. A `Context` is known by its number; switching to it goes on with the coroutine
whose registers it keeps.
-/

namespace FluentNet
namespace Coroutines
open Runs Placement

abbrev Bitmask := BitVec 8

def RUNNING : Bitmask := 4
def EXIT : Bitmask := 8

structure Coroutine where
  runtime : Bitmask
  context : Option Nat
  deriving DecidableEq, Repr

def Coroutine.running (co : Coroutine) : Prop := co.runtime &&& RUNNING ≠ 0
def Coroutine.exit (co : Coroutine) : Prop := co.runtime &&& EXIT ≠ 0

instance (co : Coroutine) : Decidable co.running := inferInstanceAs (Decidable (_ ≠ _))
instance (co : Coroutine) : Decidable co.exit := inferInstanceAs (Decidable (_ ≠ _))

def main : Nat := 0

def RECYCLE_SIZE : Nat := 0xff

structure Environment where
  coroutines : Nat → Option Coroutine
  created : Nat
  /-- `_cStack`, its back first -/
  cStack : List Nat
  recycleStack : Nat → Option Nat
  recycleTop : Nat
  /-- the coroutine that a switch to a context goes on with -/
  registers : Nat → Option Nat
  /-- how many contexts have been made -/
  contexts : Nat
  /-- the coroutine whose code is running -/
  control : Nat
  /-- who resumed each coroutine last -/
  resumedBy : Nat → Nat

namespace Environment

def init : Environment where
  coroutines := Function.update (fun _ => none) main (some ⟨0,some 0⟩)
  created := 1
  cStack := [main]
  recycleStack := fun _ => none
  recycleTop := 0
  registers := fun _ => none
  contexts := 1
  control := main
  resumedBy := id

def contextOf (s : Environment) (c : Nat) : Option Nat := (s.coroutines c).bind Coroutine.context

def setCoroutine (s : Environment) (c : Nat) (co : Option Coroutine) : Environment :=
  { s with coroutines := Function.update s.coroutines c co }

def reusable (s : Environment) : Prop := s.recycleTop > 0
def recyable (s : Environment) : Prop := s.recycleTop ≠ RECYCLE_SIZE

instance (s : Environment) : Decidable s.reusable := inferInstanceAs (Decidable (_ > _))
instance (s : Environment) : Decidable s.recyable := inferInstanceAs (Decidable (_ ≠ _))

def reuse (s : Environment) : Option Nat × Environment :=
  let top := s.recycleTop-1
  (s.recycleStack top,{ s with
    recycleStack := Function.update s.recycleStack top none, recycleTop := top })

def recycle (s : Environment) (trash : Option Nat) : Environment :=
  { s with
    recycleStack := Function.update s.recycleStack s.recycleTop trash
    recycleTop := s.recycleTop+1 }

/-- `contextSwitchOnly`; nothing when the registers were never filled. -/
def switchOnly (s : Environment) (next : Nat) : Option Environment :=
  (s.registers next).map (fun c => { s with control := c })

def switchFrom (s : Environment) (previous next : Nat) : Option Environment :=
  { s with registers := Function.update s.registers previous (some s.control) }.switchOnly next

def createCoroutine (s : Environment) : Environment :=
  { s.setCoroutine s.created (some ⟨0,none⟩) with created := s.created+1 }

/-- A context for a coroutine that has none, and `prepare`. -/
def begin (s : Environment) (c : Nat) (co : Coroutine) : Option Environment :=
  let (context,s) := if s.reusable then s.reuse
    else (some s.contexts,{ s with contexts := s.contexts+1 })
  context.map (fun k =>
    { s.setCoroutine c (some ⟨co.runtime ||| RUNNING,some k⟩) with
      registers := Function.update s.registers k (some c) })

def resume (s : Environment) (c : Nat) : Option Environment := do
  let co ← s.coroutines c
  if co.exit then some s
  else
    let s ← if co.running then some s else s.begin c co
    let previous ← s.cStack.head?
    let current ← s.contextOf previous
    let next ← s.contextOf c
    { s with
      cStack := c :: s.cStack
      resumedBy := Function.update s.resumedBy c s.control }.switchFrom current next

/-- Undefined when nobody is left on `_cStack`. -/
def yield (s : Environment) : Option Environment :=
  match s.cStack with
  | c :: previous :: rest => do
      let next ← s.contextOf previous
      let popped : Environment := { s with cStack := previous :: rest }
      match s.contextOf c with
      | some current => popped.switchFrom current next
      | none => popped.switchOnly next
  | _ => none

def exit (s : Environment) : Option Environment := do
  let co ← s.coroutines s.control
  let left := co.runtime ^^^ (EXIT ||| RUNNING)
  if s.recyable then ((s.setCoroutine s.control (some ⟨left,none⟩)).recycle co.context).yield
  else (s.setCoroutine s.control (some { co with runtime := left })).yield

inductive Label where
  | createCoroutine
  | resume (c : Nat)
  | yield
  | exit
  /-- the last pointer to a coroutine goes away -/
  | drop (c : Nat)
  deriving DecidableEq, Repr

/-- A pass of a looper or of `co::loop` resumes, and drops, only coroutines that are
not on the stack. The main coroutine neither yields nor returns. -/
def Allowed (s : Environment) : Label → Prop
  | .createCoroutine => True
  | .resume c | .drop c => (s.coroutines c).isSome ∧ c ∉ s.cStack
  | .yield | .exit => s.control ≠ main

instance (s : Environment) (l : Label) : Decidable (s.Allowed l) := by
  unfold Allowed
  split <;> infer_instance

def step (s : Environment) : Label → Option Environment
  | .createCoroutine => some s.createCoroutine
  | .resume c => s.resume c
  | .yield => s.yield
  | .exit => s.exit
  | .drop c => some (s.setCoroutine c none)

/-- Whose a context is: a coroutine's, or a slot's of `_recycleStack` below the top. -/
abbrev Owner := Nat ⊕ Nat

def holds (s : Environment) : Owner → Option Nat
  | .inl c => s.contextOf c
  | .inr i => if i < s.recycleTop then s.recycleStack i else none

/-- The stack is the chain of resumes, every running coroutine has a context of its
own, and the recycled ones are all there and all different. -/
structure Sound (s : Environment) : Prop where
  bottom : s.cStack.getLast? = some main
  chain : s.cStack.IsChain (fun c previous => s.resumedBy c = previous)
  control : s.cStack.head? = some s.control
  running : ∀ c co, s.coroutines c = some co → co.running → ∃ k, co.context = some k ∧
    (∀ d, s.contextOf d = some k → d = c) ∧ ∀ i < s.recycleTop, s.recycleStack i ≠ some k
  recycled : ∀ i < s.recycleTop, ∃ k, s.recycleStack i = some k ∧
    ∀ j < s.recycleTop, s.recycleStack j = some k → j = i
  top : s.recycleTop ≤ RECYCLE_SIZE

def Returns (s : Environment) (l : Label) : Prop :=
  ∃ t k, s.step l = some t ∧ t.control = s.resumedBy s.control ∧
    t.cStack = s.cStack.tail ∧ s.contextOf t.control = some k ∧ t.contextOf t.control = some k

/-- What holds between any two lines of the code. The coroutine that is running may
be on its way out. -/
structure Core (s : Environment) : Prop where
  placed : Placed s.holds
  made : ∀ p k, s.holds p = some k → k < s.contexts
  slots : ∀ i < s.recycleTop, (s.recycleStack i).isSome
  top : s.recycleTop ≤ RECYCLE_SIZE
  unborn : ∀ c, s.created ≤ c → s.coroutines c = none
  runtime : ∀ c co, s.coroutines c = some co → co.runtime = 0 ∨ co.runtime = RUNNING ∨ co.runtime = EXIT
  /-- whoever is to go on has a context, which goes on with it unless it is running -/
  owns : ∀ c co, s.coroutines c = some co → co.runtime = RUNNING ∨ c = main →
    ∃ k, co.context = some k ∧ (c ≠ s.control → s.registers k = some c)
  bottom : s.cStack.getLast? = some main
  chain : s.cStack.IsChain (fun c previous => s.resumedBy c = previous)
  nodup : s.cStack.Nodup
  head : s.cStack.head? = some s.control
  main : ∃ co, s.coroutines main = some co ∧ co.runtime = 0
  waiting : ∀ c ∈ s.cStack.tail, c = Coroutines.main ∨
    ∃ co, s.coroutines c = some co ∧ co.runtime = RUNNING

structure Inv (s : Environment) : Prop extends s.Core where
  running : s.control = Coroutines.main ∨
    ∃ co, s.coroutines s.control = some co ∧ co.runtime = RUNNING

section Yielding
variable {s : Environment}

theorem running_iff {co : Coroutine}
    (h : co.runtime = 0 ∨ co.runtime = RUNNING ∨ co.runtime = EXIT) :
    (co.running ↔ co.runtime = RUNNING) ∧ (co.exit ↔ co.runtime = EXIT) := by
  obtain ⟨runtime,context⟩ := co
  simp only [Coroutine.running,Coroutine.exit] at h ⊢
  rcases h with rfl | rfl | rfl <;> decide

theorem contextOf_some {c k : Nat} {co : Coroutine} (hco : s.coroutines c = some co)
    (hk : co.context = some k) : s.contextOf c = some k := by
  rw [contextOf,hco]
  exact hk

theorem Core.top_eq (hs : s.Core) : ∃ rest, s.cStack = s.control :: rest := by
  have hhead := hs.head
  rcases hst : s.cStack with _ | ⟨c,rest⟩
  · simp [hst] at hhead
  · rw [hst] at hhead
    simp only [List.head?_cons,Option.some.injEq] at hhead
    exact ⟨rest,by rw [hhead]⟩

theorem Core.stack (hs : s.Core) (hc : s.control ≠ Coroutines.main) :
    ∃ previous rest, s.cStack = s.control :: previous :: rest ∧ previous ≠ s.control ∧
      s.resumedBy s.control = previous := by
  obtain ⟨below,hst⟩ := hs.top_eq
  have hlast := hs.bottom
  have hchain := hs.chain
  rw [hst] at hlast hchain
  rcases below with _ | ⟨previous,rest⟩
  · simp only [List.getLast?_singleton,Option.some.injEq] at hlast
    exact absurd hlast hc
  · obtain ⟨hnot,_⟩ := List.nodup_cons.mp (hst ▸ hs.nodup)
    exact ⟨previous,rest,hst,fun h => hnot (h ▸ List.mem_cons_self),(List.isChain_cons_cons.mp hchain).1⟩

theorem Core.saves (hs : s.Core) {current : Nat} (hcur : s.contextOf s.control = some current) :
    let registers := Function.update s.registers current (some s.control)
    (∀ c k, c ≠ s.control → s.contextOf c = some k → registers k = s.registers k) ∧
      ∀ k, s.contextOf s.control = some k → registers k = some s.control := by
  refine ⟨fun c k hc hk => Function.update_of_ne ?_ _ _,fun k hk => ?_⟩
  · exact hs.placed.apart (p := .inl c) (q := .inl s.control) (by simpa using hc) hk hcur
  · rw [hcur] at hk
    cases hk
    exact Function.update_self _ _ _

theorem Core.context (hs : s.Core) {c : Nat} (hc : c ∈ s.cStack.tail) :
    ∃ k, s.contextOf c = some k ∧ (c ≠ s.control → s.registers k = some c) := by
  have hlive : ∃ co, s.coroutines c = some co ∧ (co.runtime = RUNNING ∨ c = Coroutines.main) := by
    rcases hs.waiting c hc with rfl | ⟨co,hco,hr⟩
    · obtain ⟨co,hco,_⟩ := hs.main
      exact ⟨co,hco,.inr rfl⟩
    · exact ⟨co,hco,.inl hr⟩
  obtain ⟨co,hco,hr⟩ := hlive
  obtain ⟨k,hk,hreg⟩ := hs.owns c co hco hr
  exact ⟨k,contextOf_some hco hk,hreg⟩

/-- Once the running coroutine is saved, if it has a context, whoever is to go on has
one that goes on with it. -/
theorem Core.saved (hs : s.Core) {registers : Nat → Option Nat}
    (hkeep : ∀ c k, c ≠ s.control → s.contextOf c = some k → registers k = s.registers k)
    (hsave : ∀ k, s.contextOf s.control = some k → registers k = some s.control) :
    ∀ c co, s.coroutines c = some co → co.runtime = RUNNING ∨ c = Coroutines.main →
      ∃ k, co.context = some k ∧ registers k = some c := by
  intro c co hco hr
  obtain ⟨k,hk,hreg⟩ := hs.owns c co hco hr
  have hctx : s.contextOf c = some k := contextOf_some hco hk
  refine ⟨k,hk,?_⟩
  by_cases hc : c = s.control
  · subst hc
    exact hsave k hctx
  · exact (hkeep c k hc hctx).trans (hreg hc)

theorem Core.switched (hs : s.Core) {previous : Nat} {rest : List Nat}
    (hst : s.cStack = s.control :: previous :: rest) {registers : Nat → Option Nat}
    (hkeep : ∀ c k, c ≠ s.control → s.contextOf c = some k → registers k = s.registers k)
    (hsave : ∀ k, s.contextOf s.control = some k → registers k = some s.control) :
    Inv { s with cStack := previous :: rest, registers, control := previous } := by
  obtain ⟨_,hnodup⟩ := List.nodup_cons.mp (hst ▸ hs.nodup)
  have hwait : ∀ c ∈ previous :: rest, c = Coroutines.main ∨
      ∃ co, s.coroutines c = some co ∧ co.runtime = RUNNING := by
    intro c hc
    exact hs.waiting c (by rw [hst]; exact hc)
  have hlast := hs.bottom
  have hchain := hs.chain
  rw [hst] at hlast hchain
  refine ⟨⟨hs.placed,hs.made,hs.slots,hs.top,hs.unborn,hs.runtime,?_,?_,?_,hnodup,rfl,hs.main,?_⟩,?_⟩
  · intro c co hco hr
    obtain ⟨k,hk,hreg⟩ := hs.saved hkeep hsave c co hco hr
    exact ⟨k,hk,fun _ => hreg⟩
  · rwa [List.getLast?_cons_cons] at hlast
  · exact hchain.tail
  · exact fun c hc => hwait c (List.mem_cons_of_mem _ hc)
  · exact hwait previous List.mem_cons_self

theorem Core.yield (hs : s.Core) (hc : s.control ≠ Coroutines.main) :
    ∃ t k, s.yield = some t ∧ t.Inv ∧ t.control = s.resumedBy s.control ∧ t.cStack = s.cStack.tail ∧
      t.coroutines = s.coroutines ∧ s.contextOf t.control = some k := by
  obtain ⟨previous,rest,hst,hne,hby⟩ := hs.stack hc
  obtain ⟨next,hnext,hreg⟩ := hs.context (c := previous) (by rw [hst]; exact List.mem_cons_self)
  cases hcur : s.contextOf s.control with
  | none =>
    refine ⟨{ s with cStack := previous :: rest, control := previous },next,?_,?_,hby.symm,by rw [hst]; rfl,
      rfl,hnext⟩
    · simp [Environment.yield,hst,hnext,hcur,switchOnly,hreg hne]
    · exact hs.switched hst (fun _ _ _ _ => rfl) (fun k hk => by simp [hcur] at hk)
  | some current =>
    obtain ⟨hkeep,hsave⟩ := hs.saves hcur
    refine ⟨{ s with
      cStack := previous :: rest
      registers := Function.update s.registers current (some s.control)
      control := previous },next,?_,hs.switched hst hkeep hsave,hby.symm,by rw [hst]; rfl,rfl,hnext⟩
    have hgoes := (hkeep previous next hne hnext).trans (hreg hne)
    simp [Environment.yield,hst,hnext,hcur,switchFrom,switchOnly,hgoes]

end Yielding

section Exiting
variable {s : Environment}

theorem holds_setCoroutine (c : Nat) (co : Option Coroutine) :
    (s.setCoroutine c co).holds = Function.update s.holds (.inl c) (co.bind Coroutine.context) := by
  funext p
  rcases p with d | i
  · by_cases hd : d = c
    · subst hd
      simp [holds,contextOf,setCoroutine]
    · simp [holds,contextOf,setCoroutine,hd]
  · rw [Function.update_of_ne (by simp)]
    rfl

theorem holds_recycle (trash : Option Nat) :
    (s.recycle trash).holds = Function.update s.holds (.inr s.recycleTop) trash := by
  funext p
  rcases p with d | i
  · simp [holds,contextOf,recycle]
  · by_cases hi : i = s.recycleTop
    · subst hi
      simp [holds,recycle]
    · have hlt : i < s.recycleTop+1 ↔ i < s.recycleTop := by omega
      simp [holds,recycle,hi,hlt]

theorem Core.born (hs : s.Core) {c : Nat} {co : Coroutine} (hco : s.coroutines c = some co) :
    c < s.created := by
  refine Nat.lt_of_not_le (fun hle => ?_)
  rw [hs.unborn c hle] at hco
  cases hco

structure Replaces (s : Environment) (c : Nat) (co : Option Coroutine) (registers : Nat → Option Nat) :
    Prop where
  born : co = none ∨ c < s.created
  placed : Placed (s.setCoroutine c co).holds
  made : ∀ k, co.bind Coroutine.context = some k → k < s.contexts
  runtime : ∀ r, co = some r → r.runtime = 0 ∨ r.runtime = RUNNING ∨ r.runtime = EXIT
  owns : ∀ r, co = some r → r.runtime = RUNNING → ∃ k, r.context = some k ∧ registers k = some c
  kept : ∀ d k, d ≠ c → s.contextOf d = some k → registers k = s.registers k

theorem Core.setCoroutine (hs : s.Core) {c : Nat} {co : Option Coroutine} {registers : Nat → Option Nat}
    (hc : c ≠ Coroutines.main) (hwait : c ∉ s.cStack.tail) (hco : s.Replaces c co registers) :
    Core { s.setCoroutine c co with registers } := by
  have hself : (s.setCoroutine c co).coroutines c = co := Function.update_self _ _ _
  have hother : ∀ d, d ≠ c → (s.setCoroutine c co).coroutines d = s.coroutines d :=
    fun d hd => Function.update_of_ne hd _ _
  refine ⟨hco.placed,?_,hs.slots,hs.top,?_,?_,?_,hs.bottom,hs.chain,hs.nodup,hs.head,?_,?_⟩
  · intro p k hk
    change (s.setCoroutine c co).holds p = some k at hk
    rw [holds_setCoroutine] at hk
    by_cases hp : p = .inl c
    · subst hp
      rw [Function.update_self] at hk
      exact hco.made k hk
    · rw [Function.update_of_ne hp] at hk
      exact hs.made p k hk
  · intro d hd
    by_cases hdc : d = c
    · subst hdc
      exact hself.trans (hco.born.resolve_right (Nat.not_lt.mpr hd))
    · exact (hother d hdc).trans (hs.unborn d hd)
  · intro d r hr
    by_cases hdc : d = c
    · subst hdc
      exact hco.runtime r (hself.symm.trans hr)
    · exact hs.runtime d r ((hother d hdc).symm.trans hr)
  · intro d r hr hrun
    by_cases hdc : d = c
    · subst hdc
      obtain ⟨k,hk,hreg⟩ := hco.owns r (hself.symm.trans hr) (hrun.resolve_right hc)
      exact ⟨k,hk,fun _ => hreg⟩
    · have hr' : s.coroutines d = some r := (hother d hdc).symm.trans hr
      obtain ⟨k,hk,hreg⟩ := hs.owns d r hr' hrun
      exact ⟨k,hk,fun hd => (hco.kept d k hdc (contextOf_some hr' hk)).trans (hreg hd)⟩
  · rw [hother _ (Ne.symm hc)]
    exact hs.main
  · intro d hd
    have hdc : d ≠ c := by
      rintro rfl
      exact hwait hd
    rw [hother d hdc]
    exact hs.waiting d hd

theorem Core.gone (hs : s.Core) (hc : s.control ≠ Coroutines.main) {co : Coroutine}
    (hco : s.coroutines s.control = some co) (context : Option Nat)
    (hplaced : Placed (s.setCoroutine s.control (some ⟨EXIT,context⟩)).holds)
    (hmade : ∀ k, context = some k → k < s.contexts) :
    (s.setCoroutine s.control (some ⟨EXIT,context⟩)).Core := by
  obtain ⟨previous,rest,hst,_⟩ := hs.stack hc
  obtain ⟨hnot,_⟩ := List.nodup_cons.mp (hst ▸ hs.nodup)
  refine hs.setCoroutine hc (by rw [hst]; exact hnot) ⟨.inr (hs.born hco),hplaced,hmade,fun r hr => ?_,
    fun r hr hrun => ?_,fun _ _ _ _ => rfl⟩
  · cases hr
    exact .inr (.inr rfl)
  · cases hr
    cases hrun

theorem Core.recycle (hs : s.Core) {k : Nat} (hfree : ∀ p, s.holds p ≠ some k) (hk : k < s.contexts)
    (hroom : s.recyable) : (s.recycle (some k)).Core := by
  refine ⟨?_,?_,?_,?_,hs.unborn,hs.runtime,hs.owns,hs.bottom,hs.chain,hs.nodup,hs.head,hs.main,hs.waiting⟩
  · rw [holds_recycle]
    exact hs.placed.fill hfree
  · intro p j hj
    rw [holds_recycle] at hj
    by_cases hp : p = .inr s.recycleTop
    · subst hp
      rw [Function.update_self] at hj
      cases hj
      exact hk
    · rw [Function.update_of_ne hp] at hj
      exact hs.made p j hj
  · intro i hi
    by_cases hit : i = s.recycleTop
    · subst hit
      simp [Environment.recycle]
    · have hlt : i < s.recycleTop := by
        simp only [Environment.recycle] at hi
        omega
      simpa [Environment.recycle,hit] using hs.slots i hlt
  · have hle := hs.top
    have hne : s.recycleTop ≠ RECYCLE_SIZE := hroom
    change s.recycleTop+1 ≤ RECYCLE_SIZE
    omega

theorem Inv.exit (hs : s.Inv) (hc : s.control ≠ Coroutines.main) :
    ∃ t k, s.exit = some t ∧ t.Inv ∧ t.control = s.resumedBy s.control ∧ t.cStack = s.cStack.tail ∧
      s.contextOf t.control = some k ∧ t.contextOf t.control = some k := by
  obtain ⟨⟨runtime,context⟩,hco,hr⟩ := hs.running.resolve_left hc
  obtain ⟨k,hk,_⟩ := hs.owns _ _ hco (.inl hr)
  dsimp only at hr hk
  subst hr hk
  have hleft : RUNNING ^^^ (EXIT ||| RUNNING) = EXIT := by decide
  have hheld : s.holds (.inl s.control) = some k := contextOf_some hco rfl
  -- whoever goes on next keeps the context it has
  have hkept : ∀ u : Environment, u.Core → u.control = s.control → u.cStack = s.cStack →
      u.resumedBy = s.resumedBy → (∀ c, c ≠ s.control → u.coroutines c = s.coroutines c) →
      ∃ t j, u.yield = some t ∧ t.Inv ∧ t.control = s.resumedBy s.control ∧
        t.cStack = s.cStack.tail ∧ s.contextOf t.control = some j ∧ t.contextOf t.control = some j := by
    intro u hu hcontrol hstack hby hsame
    obtain ⟨t,j,ht,hinv,htc,hts,hcos,hj⟩ := hu.yield (by rw [hcontrol]; exact hc)
    obtain ⟨previous,_,_,hprev,hresumed⟩ := hs.stack hc
    have hne : t.control ≠ s.control := by
      rw [htc,hby,hcontrol,hresumed]
      exact hprev
    refine ⟨t,j,ht,hinv,by rw [htc,hby,hcontrol],by rw [hts,hstack],?_,?_⟩
    · rw [← hj,contextOf,contextOf,hsame _ hne]
    · rw [← hj,contextOf,contextOf,hcos]
  simp only [Environment.exit,hco,Option.bind_eq_bind,Option.bind_some,hleft]
  by_cases hrec : s.recyable
  · rw [if_pos hrec]
    have hgone := hs.toCore.gone hc hco none
      (by rw [holds_setCoroutine]; exact hs.placed.clear _) (by simp)
    refine hkept _ (hgone.recycle (fun p hp => ?_) (hs.made _ _ hheld) hrec) rfl rfl rfl
      (fun c hc => Function.update_of_ne hc _ _)
    rw [holds_setCoroutine] at hp
    by_cases hpc : p = .inl s.control
    · subst hpc
      simp at hp
    · rw [Function.update_of_ne hpc] at hp
      exact hpc (hs.placed p _ k hp hheld)
  · rw [if_neg hrec]
    refine hkept _ ?_ rfl rfl rfl (fun c hc => Function.update_of_ne hc _ _)
    refine hs.toCore.gone hc hco _ ?_ (fun j hj => ?_)
    · rw [holds_setCoroutine]
      have hsame : Function.update s.holds (.inl s.control) (some k) = s.holds :=
        Function.update_eq_self_iff.mpr hheld.symm
      exact hsame.symm ▸ hs.placed
    · cases hj
      exact hs.made _ _ hheld

end Exiting

section Resuming
variable {s : Environment}

theorem holds_reuse (hr : s.reusable) :
    (s.reuse).2.holds = Function.update s.holds (.inr (s.recycleTop-1)) none := by
  have hpos : 0 < s.recycleTop := hr
  funext p
  rcases p with d | i
  · simp [holds,contextOf,reuse]
  · by_cases hi : i = s.recycleTop-1
    · subst hi
      simp [holds,reuse]
    · have hlt : i < s.recycleTop-1 ↔ i < s.recycleTop := by omega
      simp [holds,reuse,hi,hlt]

theorem Inv.off_stack (hs : s.Inv) {c : Nat} (hout : c ∉ s.cStack) :
    c ≠ s.control ∧ c ≠ Coroutines.main := by
  refine ⟨?_,?_⟩
  · rintro rfl
    exact hout (List.mem_of_mem_head? hs.head)
  · rintro rfl
    exact hout (List.mem_of_getLast? hs.bottom)

theorem Inv.pooled (hs : s.Inv) {recycleStack : Nat → Option Nat} {recycleTop contexts : Nat}
    (hplaced : Placed { s with recycleStack, recycleTop, contexts }.holds)
    (hmade : ∀ p k, { s with recycleStack, recycleTop, contexts }.holds p = some k → k < contexts)
    (hslots : ∀ i < recycleTop, (recycleStack i).isSome) (htop : recycleTop ≤ RECYCLE_SIZE) :
    Inv { s with recycleStack, recycleTop, contexts } :=
  ⟨⟨hplaced,hmade,hslots,htop,hs.unborn,hs.runtime,hs.owns,hs.bottom,hs.chain,hs.nodup,hs.head,
    hs.main,hs.waiting⟩,hs.running⟩

theorem Inv.setCoroutine (hs : s.Inv) {c : Nat} {co : Option Coroutine} {registers : Nat → Option Nat}
    (hout : c ∉ s.cStack) (hco : s.Replaces c co registers) :
    Inv { s.setCoroutine c co with registers } := by
  obtain ⟨hne,hmain⟩ := hs.off_stack hout
  have hwait : c ∉ s.cStack.tail := fun hc => hout (List.mem_of_mem_tail hc)
  refine ⟨hs.toCore.setCoroutine hmain hwait hco,hs.running.imp_right (fun hrun => ?_)⟩
  obtain ⟨r,hr,h⟩ := hrun
  exact ⟨r,(Function.update_of_ne (Ne.symm hne) _ _).trans hr,h⟩

theorem Inv.started (hs : s.Inv) {c k : Nat} {co : Coroutine} (hc : s.coroutines c = some co)
    (hout : c ∉ s.cStack) (hfree : ∀ p, s.holds p ≠ some k) (hk : k < s.contexts) :
    Inv { s.setCoroutine c (some ⟨RUNNING,some k⟩) with
      registers := Function.update s.registers k (some c) } := by
  refine hs.setCoroutine hout ⟨.inr (hs.born hc),?_,?_,?_,?_,fun d j hd hj => ?_⟩
  · rw [holds_setCoroutine]
    exact hs.placed.fill hfree
  · intro j hj
    cases hj
    exact hk
  · intro r hr
    cases hr
    exact .inr (.inl rfl)
  · intro r hr _
    cases hr
    exact ⟨k,rfl,Function.update_self _ _ _⟩
  · refine Function.update_of_ne ?_ _ _
    rintro rfl
    exact hfree (.inl d) hj

theorem Inv.begin (hs : s.Inv) {c : Nat} {co : Coroutine} (hco : s.coroutines c = some co)
    (hr : co.runtime = 0) (hout : c ∉ s.cStack) :
    ∃ t, s.begin c co = some t ∧ t.Inv ∧ t.cStack = s.cStack ∧ t.control = s.control ∧
      ∃ k, t.coroutines c = some ⟨RUNNING,some k⟩ := by
  have hrun : co.runtime ||| RUNNING = RUNNING := by rw [hr]; decide
  by_cases hre : s.reusable
  · have hpos : 0 < s.recycleTop := hre
    obtain ⟨k,hk⟩ := Option.isSome_iff_exists.mp (hs.slots (s.recycleTop-1) (by omega))
    have hlt : s.recycleTop-1 < s.recycleTop := by omega
    have hheld : s.holds (.inr (s.recycleTop-1)) = some k := by
      simp [holds,hk,hlt]
    have hsub : ∀ p j, s.reuse.2.holds p = some j → s.holds p = some j ∧ p ≠ .inr (s.recycleTop-1) := by
      intro p j hj
      rw [holds_reuse hre] at hj
      by_cases hp : p = .inr (s.recycleTop-1)
      · subst hp
        simp at hj
      · rw [Function.update_of_ne hp] at hj
        exact ⟨hj,hp⟩
    have hu : s.reuse.2.Inv := by
      refine hs.pooled ?_ ?_ ?_ ?_
      · change Placed s.reuse.2.holds
        rw [holds_reuse hre]
        exact hs.placed.clear _
      · exact fun p j hj => hs.made p j (hsub p j hj).1
      · intro i hi
        have hne : i ≠ s.recycleTop-1 := by omega
        rw [Function.update_of_ne hne]
        exact hs.slots i (by omega)
      · have htop := hs.top
        omega
    have hfree : ∀ p, s.reuse.2.holds p ≠ some k :=
      fun p hp => (hsub p k hp).2 (hs.placed p _ k (hsub p k hp).1 hheld)
    refine ⟨_,?_,hu.started hco hout hfree (hs.made _ _ hheld),rfl,rfl,k,Function.update_self _ _ _⟩
    have hslot : s.reuse.1 = some k := hk
    simp only [Environment.begin,if_pos hre,hrun,hslot,Option.map_some]
  · have hu : Inv { s with contexts := s.contexts+1 } :=
      hs.pooled hs.placed (fun p j hj => Nat.lt_succ_of_lt (hs.made p j hj)) hs.slots hs.top
    have hfree : ∀ p, s.holds p ≠ some s.contexts :=
      fun p hp => Nat.lt_irrefl _ (hs.made p _ hp)
    refine ⟨_,?_,hu.started hco hout hfree (Nat.lt_succ_self _),rfl,rfl,_,Function.update_self _ _ _⟩
    simp only [Environment.begin,if_neg hre,hrun,Option.map_some]

theorem Inv.current (hs : s.Inv) : ∃ k, s.contextOf s.control = some k := by
  have hlive : ∃ co, s.coroutines s.control = some co ∧
      (co.runtime = RUNNING ∨ s.control = Coroutines.main) := by
    rcases hs.running with hm | ⟨co,hco,hr⟩
    · obtain ⟨co,hco,_⟩ := hs.main
      exact ⟨co,hm ▸ hco,.inr hm⟩
    · exact ⟨co,hco,.inl hr⟩
  obtain ⟨co,hco,hr⟩ := hlive
  obtain ⟨k,hk,_⟩ := hs.owns _ co hco hr
  exact ⟨k,contextOf_some hco hk⟩

theorem Inv.entered (hs : s.Inv) {c current next : Nat} (hco : s.coroutines c = some ⟨RUNNING,some next⟩)
    (hout : c ∉ s.cStack) (hcur : s.contextOf s.control = some current) :
    ∃ t, { s with
        cStack := c :: s.cStack
        resumedBy := Function.update s.resumedBy c s.control }.switchFrom current next = some t ∧
      t.Inv := by
  obtain ⟨hne,_⟩ := hs.off_stack hout
  obtain ⟨hkeep,hsave⟩ := hs.saves hcur
  obtain ⟨k,hk,hreg⟩ := hs.owns c _ hco (.inl rfl)
  cases hk
  have hgoes := (hkeep c next hne (contextOf_some hco rfl)).trans (hreg hne)
  obtain ⟨rest,hst⟩ := hs.top_eq
  refine ⟨{ s with
    cStack := c :: s.cStack
    resumedBy := Function.update s.resumedBy c s.control
    registers := Function.update s.registers current (some s.control)
    control := c },by simp [switchFrom,switchOnly,hgoes],?_⟩
  refine ⟨⟨hs.placed,hs.made,hs.slots,hs.top,hs.unborn,hs.runtime,?_,?_,?_,?_,rfl,hs.main,?_⟩,
    .inr ⟨_,hco,rfl⟩⟩
  · intro d co hd hr
    obtain ⟨k,hk,hreg⟩ := hs.saved hkeep hsave d co hd hr
    exact ⟨k,hk,fun _ => hreg⟩
  · rw [hst,List.getLast?_cons_cons,← hst]
    exact hs.bottom
  · -- the resumes of those below are what they were
    have hold : s.cStack.IsChain (fun d previous =>
        Function.update s.resumedBy c s.control d = previous) := by
      refine hs.chain.imp_of_mem_imp (fun d e hd he hby => ?_)
      have hdc : d ≠ c := by
        rintro rfl
        exact hout hd
      rwa [Function.update_of_ne hdc]
    rw [hst] at hold ⊢
    exact List.isChain_cons_cons.mpr ⟨Function.update_self _ _ _,hold⟩
  · exact List.nodup_cons.mpr ⟨hout,hs.nodup⟩
  · intro d hd
    change d ∈ s.cStack at hd
    rw [hst] at hd
    rcases List.mem_cons.mp hd with rfl | hd
    · exact hs.running
    · exact hs.waiting d (by rw [hst]; exact hd)

theorem Inv.resume (hs : s.Inv) {c : Nat} (hc : (s.coroutines c).isSome) (hout : c ∉ s.cStack) :
    ∃ t, s.resume c = some t ∧ t.Inv := by
  obtain ⟨co,hco⟩ := Option.isSome_iff_exists.mp hc
  obtain ⟨hrun,hexit⟩ := running_iff (hs.runtime c co hco)
  obtain ⟨hne,hmain⟩ := hs.off_stack hout
  have hgo : ∀ u : Environment, u.Inv → u.cStack = s.cStack → (∃ k, u.coroutines c = some ⟨RUNNING,some k⟩) →
      ∃ t, (do
        let previous ← u.cStack.head?
        let current ← u.contextOf previous
        let next ← u.contextOf c
        { u with
          cStack := c :: u.cStack
          resumedBy := Function.update u.resumedBy c u.control }.switchFrom current next) = some t ∧
        t.Inv := by
    intro u hu hst hk
    obtain ⟨next,hk⟩ := hk
    obtain ⟨current,hcur⟩ := hu.current
    obtain ⟨t,ht,hinv⟩ := hu.entered hk (by rw [hst]; exact hout) hcur
    refine ⟨t,?_,hinv⟩
    rw [hu.head]
    simp only [Option.bind_eq_bind,Option.bind_some,hcur,contextOf_some hk rfl]
    exact ht
  simp only [Environment.resume,hco,Option.bind_eq_bind,Option.bind_some]
  by_cases he : co.exit
  · rw [if_pos he]
    exact ⟨s,rfl,hs⟩
  rw [if_neg he]
  by_cases hr : co.running
  · rw [if_pos hr]
    obtain ⟨runtime,context⟩ := co
    have hr' : runtime = RUNNING := hrun.mp hr
    subst hr'
    obtain ⟨k,hk,_⟩ := hs.owns c _ hco (.inl rfl)
    dsimp only at hk
    subst hk
    exact hgo s hs rfl ⟨k,hco⟩
  · have h0 : co.runtime = 0 := by
      rcases hs.runtime c co hco with h | h | h
      · exact h
      · exact absurd (hrun.mpr h) hr
      · exact absurd (hexit.mpr h) he
    obtain ⟨u,hu,hinv,hst,_,hk⟩ := hs.begin hco h0 hout
    rw [if_neg hr,hu,Option.bind_some]
    exact hgo u hinv hst hk

end Resuming

section Running
variable {s : Environment}

theorem Inv.initial : init.Inv := by
  have honly : ∀ c co, init.coroutines c = some co → c = Coroutines.main ∧ co = ⟨0,some 0⟩ := by
    intro c co hco
    by_cases hc : c = Coroutines.main
    · subst hc
      simp [Environment.init] at hco
      exact ⟨rfl,hco.symm⟩
    · simp [Environment.init,Function.update_of_ne hc] at hco
  have hholds : ∀ p k, init.holds p = some k → p = .inl Coroutines.main ∧ k = 0 := by
    intro p k hk
    rcases p with c | i
    · obtain ⟨co,hco,hk⟩ := Option.bind_eq_some_iff.mp hk
      obtain ⟨rfl,rfl⟩ := honly c co hco
      cases hk
      exact ⟨rfl,rfl⟩
    · simp [holds,Environment.init] at hk
  refine ⟨⟨?_,?_,by simp [Environment.init],by decide,?_,?_,?_,rfl,.singleton _,by decide,rfl,
    ⟨⟨0,some 0⟩,rfl,rfl⟩,by simp [Environment.init]⟩,.inl rfl⟩
  · exact fun p q k hp hq => (hholds p k hp).1.trans (hholds q k hq).1.symm
  · intro p k hk
    rw [(hholds p k hk).2]
    exact Nat.one_pos
  · intro c hc
    have hmain : c ≠ Coroutines.main := by
      rintro rfl
      exact absurd hc (by decide)
    simp [Environment.init,Function.update_of_ne hmain]
  · intro c co hco
    exact .inl (congrArg Coroutine.runtime (honly c co hco).2)
  · intro c co hco _
    obtain ⟨hc,rfl⟩ := honly c co hco
    exact ⟨0,rfl,fun hne => absurd hc hne⟩

theorem Inv.replaced (hs : s.Inv) {c : Nat} {co : Option Coroutine} (hout : c ∉ s.cStack)
    (hco : co = none ∨ co = some ⟨0,none⟩) (hborn : co = none ∨ c < s.created) :
    (s.setCoroutine c co).Inv := by
  have hbare : co.bind Coroutine.context = none := by
    rcases hco with rfl | rfl <;> rfl
  have hfresh : ∀ r, co = some r → r.runtime = 0 := by
    rintro r rfl
    rcases hco with hco | hco
    · cases hco
    · cases hco
      rfl
  refine hs.setCoroutine hout ⟨hborn,?_,?_,fun r hr => .inl (hfresh r hr),fun r hr hrun => ?_,
    fun _ _ _ _ => rfl⟩
  · rw [holds_setCoroutine,hbare]
    exact hs.placed.clear _
  · intro k hk
    rw [hbare] at hk
    cases hk
  · exact absurd ((hfresh r hr).symm.trans hrun) (by decide)

theorem Inv.alive (hs : s.Inv) {c : Nat} (hc : c ∈ s.cStack) : ∃ co, s.coroutines c = some co := by
  have hown : c = s.control ∨ c ∈ s.cStack.tail := by
    obtain ⟨rest,hst⟩ := hs.top_eq
    rw [hst] at hc ⊢
    exact List.mem_cons.mp hc
  have hmain : ∃ co, s.coroutines Coroutines.main = some co := hs.main.imp (fun _ h => h.1)
  rcases hown with rfl | htail
  · rcases hs.running with hm | ⟨co,hco,_⟩
    · exact hm ▸ hmain
    · exact ⟨co,hco⟩
  · rcases hs.waiting c htail with rfl | ⟨co,hco,_⟩
    · exact hmain
    · exact ⟨co,hco⟩

theorem Inv.createCoroutine (hs : s.Inv) : s.createCoroutine.Inv := by
  have hfree : s.coroutines s.created = none := hs.unborn _ (Nat.le_refl _)
  have hmore : Inv { s with created := s.created+1 } :=
    ⟨⟨hs.placed,hs.made,hs.slots,hs.top,fun c hc => hs.unborn c (Nat.le_of_succ_le hc),hs.runtime,hs.owns,
      hs.bottom,hs.chain,hs.nodup,hs.head,hs.main,hs.waiting⟩,hs.running⟩
  have hout : s.created ∉ s.cStack := by
    intro hin
    obtain ⟨co,hco⟩ := hs.alive hin
    rw [hfree] at hco
    cases hco
  exact hmore.replaced hout (.inr rfl) (.inr (Nat.lt_succ_self _))

/-- An allowed step is defined, and keeps the invariant. -/
theorem Inv.step (hs : s.Inv) {l : Label} (hl : s.Allowed l) : ∃ t, s.step l = some t ∧ t.Inv := by
  cases l with
  | createCoroutine => exact ⟨_,rfl,hs.createCoroutine⟩
  | resume c => exact hs.resume hl.1 hl.2
  | yield =>
    obtain ⟨t,_,ht,hinv,_⟩ := hs.yield hl
    exact ⟨t,ht,hinv⟩
  | exit =>
    obtain ⟨t,_,ht,hinv,_⟩ := hs.exit hl
    exact ⟨t,ht,hinv⟩
  | drop c => exact ⟨_,rfl,hs.replaced hl.2 (.inl rfl) (.inl rfl)⟩

theorem Inv.reached (h : Path Environment.step Allowed Environment.init s) : s.Inv := by
  refine h.keeps (fun u l v hl hv hu => ?_) Inv.initial
  obtain ⟨w,hw,hinv⟩ := hu.step hl
  rw [hv] at hw
  cases hw
  exact hinv

theorem Inv.returns (hs : s.Inv) (hc : s.control ≠ Coroutines.main) :
    s.Returns .yield ∧ s.Returns .exit := by
  constructor
  · obtain ⟨t,k,ht,_,hcontrol,hst,hcos,hk⟩ := hs.yield hc
    refine ⟨t,k,ht,hcontrol,hst,hk,?_⟩
    rw [← hk,contextOf,contextOf,hcos]
  · obtain ⟨t,k,ht,_,hcontrol,hst,hk,hk'⟩ := hs.exit hc
    exact ⟨t,k,ht,hcontrol,hst,hk,hk'⟩

theorem Inv.sound (hs : s.Inv) : s.Sound := by
  refine ⟨hs.bottom,hs.chain,hs.head,?_,?_,hs.top⟩
  · intro c co hco hrun
    obtain ⟨k,hk,_⟩ := hs.owns c co hco (.inl ((running_iff (hs.runtime c co hco)).1.mp hrun))
    have hheld : s.holds (.inl c) = some k := contextOf_some hco hk
    refine ⟨k,hk,fun d hd => Sum.inl.inj (hs.placed (.inl d) _ k hd hheld),fun i hi hik => ?_⟩
    have hslot : s.holds (.inr i) = some k := (if_pos hi).trans hik
    exact Sum.inr_ne_inl (hs.placed _ _ k hslot hheld)
  · intro i hi
    obtain ⟨k,hk⟩ := Option.isSome_iff_exists.mp (hs.slots i hi)
    refine ⟨k,hk,fun j hj hjk => ?_⟩
    exact Sum.inr.inj (hs.placed (.inr j) (.inr i) k ((if_pos hj).trans hjk) ((if_pos hi).trans hk))

/-- In every run the stack, the contexts and the recycled contexts are sound, no step
is undefined, and whoever yields or returns goes back to the one who resumed it. -/
theorem environment_sound (h : Path Environment.step Allowed Environment.init s) :
    s.Sound ∧ (∀ l, s.Allowed l → (s.step l).isSome) ∧
      (s.control ≠ Coroutines.main → s.Returns .yield ∧ s.Returns .exit) := by
  have hs := Inv.reached h
  refine ⟨hs.sound,fun l hl => ?_,hs.returns⟩
  obtain ⟨t,ht,_⟩ := hs.step hl
  exact ht ▸ rfl

def nested : List Label :=
  [.createCoroutine,.createCoroutine,.resume 1,.resume 2,.exit,.createCoroutine,.resume 3,.yield,
    .drop 2,.resume 3]

theorem environment_sound_nested : ∃ s, Runs.run Environment.step Allowed Environment.init nested = some s ∧
    s.cStack = [3,1,Coroutines.main] ∧ s.contextOf 3 = some 2 ∧ s.recycleTop = 0 ∧ s.Sound ∧
    (∀ l, s.Allowed l → (s.step l).isSome) ∧ s.Returns .yield ∧ s.Returns .exit := by
  obtain ⟨s,hs⟩ := Option.isSome_iff_exists.mp
    (show (Runs.run Environment.step Allowed Environment.init nested).isSome by decide +kernel)
  have hstack : (Runs.run Environment.step Allowed Environment.init nested).map
      (fun s => (s.cStack,s.contextOf 3,s.recycleTop,s.control)) =
      some ([3,1,Coroutines.main],some 2,0,3) := by
    decide +kernel
  rw [hs] at hstack
  simp only [Option.map_some,Option.some.injEq,Prod.mk.injEq] at hstack
  obtain ⟨hst,hctx,htop,hcontrol⟩ := hstack
  obtain ⟨hsound,hdefined,hreturns⟩ := environment_sound (run_path hs)
  have hmain : s.control ≠ Coroutines.main := by
    rw [hcontrol]
    decide
  exact ⟨s,hs,hst,hctx,htop,hsound,hdefined,hreturns hmain⟩

end Running

section Effects
variable {s t : Environment}

theorem switchOnly_effects {next : Nat} (h : s.switchOnly next = some t) :
    t.coroutines = s.coroutines ∧ t.cStack = s.cStack ∧ t.created = s.created := by
  obtain ⟨_,_,rfl⟩ := Option.map_eq_some_iff.mp h
  exact ⟨rfl,rfl,rfl⟩

theorem begin_effects {c : Nat} {co : Coroutine} (h : s.begin c co = some t) :
    (∀ d, d ≠ c → t.coroutines d = s.coroutines d) ∧ t.cStack = s.cStack ∧ t.created = s.created := by
  simp only [Environment.begin] at h
  obtain ⟨k,_,rfl⟩ := Option.map_eq_some_iff.mp h
  split
  · exact ⟨fun d hd => Function.update_of_ne hd _ _,rfl,rfl⟩
  · exact ⟨fun d hd => Function.update_of_ne hd _ _,rfl,rfl⟩

theorem resume_effects {c : Nat} {co : Coroutine} (hco : s.coroutines c = some co) (he : ¬co.exit)
    (h : s.resume c = some t) :
    (∀ d, d ≠ c → t.coroutines d = s.coroutines d) ∧ t.cStack = c :: s.cStack ∧ t.created = s.created := by
  -- what comes after a context was found
  have hgo : ∀ u : Environment, (do
      let previous ← u.cStack.head?
      let current ← u.contextOf previous
      let next ← u.contextOf c
      { u with
        cStack := c :: u.cStack
        resumedBy := Function.update u.resumedBy c u.control }.switchFrom current next) = some t →
      t.coroutines = u.coroutines ∧ t.cStack = c :: u.cStack ∧ t.created = u.created := by
    intro u hu
    obtain ⟨_,_,hu⟩ := Option.bind_eq_some_iff.mp hu
    obtain ⟨_,_,hu⟩ := Option.bind_eq_some_iff.mp hu
    obtain ⟨_,_,hu⟩ := Option.bind_eq_some_iff.mp hu
    exact switchOnly_effects hu
  simp only [Environment.resume,hco,Option.bind_eq_bind,Option.bind_some,if_neg he] at h
  split at h
  · obtain ⟨h1,h2,h3⟩ := hgo s h
    exact ⟨fun d _ => congrFun h1 d,h2,h3⟩
  · obtain ⟨u,hu,h⟩ := Option.bind_eq_some_iff.mp h
    obtain ⟨g1,g2,g3⟩ := begin_effects hu
    obtain ⟨h1,h2,h3⟩ := hgo u h
    exact ⟨fun d hd => (congrFun h1 d).trans (g1 d hd),h2.trans (by rw [g2]),h3.trans g3⟩

theorem yield_effects (h : s.yield = some t) :
    t.coroutines = s.coroutines ∧ t.cStack = s.cStack.tail ∧ t.created = s.created := by
  unfold Environment.yield at h
  split at h
  · rename_i hst
    obtain ⟨_,_,h⟩ := Option.bind_eq_some_iff.mp h
    rw [hst]
    dsimp only at h
    split at h
    · exact switchOnly_effects h
    · exact switchOnly_effects h
  · cases h

theorem exit_effects {co : Coroutine} (hco : s.coroutines s.control = some co) (h : s.exit = some t) :
    (∀ d, d ≠ s.control → t.coroutines d = s.coroutines d) ∧
    (∃ context, t.coroutines s.control = some ⟨co.runtime ^^^ (EXIT ||| RUNNING),context⟩) ∧
    t.cStack = s.cStack.tail ∧ t.created = s.created := by
  simp only [Environment.exit,hco,Option.bind_eq_bind,Option.bind_some] at h
  split at h
  · obtain ⟨h1,h2,h3⟩ := yield_effects h
    rw [h1]
    exact ⟨fun d hd => Function.update_of_ne hd _ _,⟨none,Function.update_self _ _ _⟩,h2,h3⟩
  · obtain ⟨h1,h2,h3⟩ := yield_effects h
    rw [h1]
    exact ⟨fun d hd => Function.update_of_ne hd _ _,⟨co.context,Function.update_self _ _ _⟩,h2,h3⟩

end Effects

end Environment

end Coroutines
end FluentNet
