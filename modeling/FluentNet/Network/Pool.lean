import FluentNet.Network.Context
import FluentNet.Utils.WeakReference
import FluentNet.Library.Runs
set_option autoImplicit false

namespace FluentNet
open Runs

abbrev Token := Nat

/-- The address of a `std::pair<Token, Context>`. -/
abbrev Bundle := Nat

structure BundleValue where
  token : Token
  context : Conn
  deriving DecidableEq, Repr

abbrev Heap := Bundle → Option BundleValue

def Heap.set (heap : Heap) (bundle : Bundle) (value : Option BundleValue) : Heap :=
  fun b => if b = bundle then value else heap b

def Heap.destroy (heap : Heap) : Option Bundle → Heap
  | none => heap
  | some old => heap.set old none

/-- A disconnected context that nobody else keeps alive. -/
def Context.isReusable (c : Context) : Bool :=
  c.nState == .disconnected && match c.lifecycle with
    | none => true
    | some useCount => useCount ≤ 1

structure Pool extends WeakReference where
  container : List (Option Bundle)
  deriving DecidableEq, Repr

namespace Pool

def GC_THRESHOLD : Nat := 16
def PREFETCH : Nat := 16

def STEP : Nat := 2

def init : Pool where
  toWeakReference := .init
  container := List.replicate PREFETCH none

def isReusable (heap : Heap) : Option Bundle → Bool
  | none => true
  | some b =>
      match heap b with
      | none => false
      | some value => value.context.isReusable

/-- The collector runs once there are more slots than the threshold. -/
def collect (p : Pool) (heap : Heap) : Option Pool :=
  if p.container.length > GC_THRESHOLD then do
    let (w,container) ← WeakReference.updateReusableIndex (isReusable heap) STEP
      p.toWeakReference p.container
    some { toWeakReference := w, container }
  else some p

end Pool

structure Store where
  pool : Pool
  heap : Heap

namespace Store

def init : Store := ⟨Pool.init,fun _ => none⟩

/-- The end of `emplace`: the new pair takes the slot at `_reusableIndex`, whose old
one it destroys, or a slot of its own. -/
def place (p : Pool) (heap : Heap) (bundle : Bundle) (value : BundleValue) : Option Store :=
  let heap' := heap.set bundle (some value)
  let back : Store := ⟨{ p with container := p.container ++ [some bundle] },heap'⟩
  if p.reusableIndex ≠ p.container.length then do
    let slot ← WeakReference.get p.container p.reusableIndex
    if Pool.isReusable heap' slot then
      let pool := { p with
        container := p.container.set p.reusableIndex.toNat (some bundle)
        reusableIndex := p.reusableIndex+1 }
      some ⟨pool,heap'.destroy slot⟩
    else some back
  else some back

/-- `Pool::emplace`; `fresh` is the address that the allocator gives. -/
def emplace (s : Store) (token : Token) (fresh : Bundle) : Option Store := do
  let p ← s.pool.collect s.heap
  place p s.heap fresh ⟨token,Conn.init⟩

/-- What happens to a pool: an emplace at an unused address, or a change of a
context that is alive. -/
inductive Label where
  | emplace (token : Token) (fresh : Bundle)
  | change (bundle : Bundle) (context : Conn)

def step (s : Store) : Label → Option Store
  | .emplace token fresh =>
      match s.heap fresh with
      | none => s.emplace token fresh
      | some _ => none
  | .change bundle context =>
      match s.heap bundle with
      | none => none
      | some value => some { s with heap := s.heap.set bundle (some { value with context }) }

end Store

@[simp] theorem Heap.set_self (heap : Heap) (b : Bundle) (value : Option BundleValue) :
    heap.set b value b = value := by
  simp [Heap.set]

theorem Heap.set_other {heap : Heap} {a b : Bundle} (h : a ≠ b) (value : Option BundleValue) :
    heap.set b value a = heap a := by
  simp [Heap.set,h]

theorem Heap.destroy_apply (heap : Heap) (slot : Option Bundle) (b : Bundle) :
    heap.destroy slot b = if slot = some b then none else heap b := by
  cases slot with
  | none => rfl
  | some a => simp [Heap.destroy,Heap.set,eq_comm]

theorem Pool.isReusable_set (heap : Heap) {slot : Option Bundle} {b : Bundle}
    (h : slot ≠ some b) (value : Option BundleValue) :
    Pool.isReusable (heap.set b value) slot = Pool.isReusable heap slot := by
  cases slot with
  | none => rfl
  | some a =>
    have hne : a ≠ b := fun he => h (by rw [he])
    simp only [Pool.isReusable,Heap.set_other hne]

/-- The window stands, and every pair alive has exactly one owner. -/
structure Store.Wf (s : Store) : Prop where
  window : s.pool.toWeakReference.Wf s.pool.container.length
  owned : ∀ b, s.pool.container.count (some b) = if (s.heap b).isSome then 1 else 0

theorem Store.Wf.owner {s : Store} (hs : s.Wf) {b : Bundle} (hb : some b ∈ s.pool.container) :
    (s.heap b).isSome := by
  have hpos := List.count_pos_iff.mpr hb
  rw [hs.owned] at hpos
  split at hpos
  · assumption
  · omega

theorem Store.init_wf : Store.init.Wf := by
  refine ⟨WeakReference.init_wf _,fun b => ?_⟩
  simp [Store.init,Pool.init,List.count_replicate]

section Collect
variable {p : Pool}

theorem Pool.collect_wf (heap : Heap) (hw : p.toWeakReference.Wf p.container.length) :
    ∃ q, p.collect heap = some q ∧ q.toWeakReference.Wf q.container.length ∧
      q.container.Perm p.container := by
  unfold Pool.collect
  split
  · obtain ⟨w,slots,he,hw',hp⟩ := WeakReference.updateReusableIndex_wf
      (Pool.isReusable heap) STEP hw
    exact ⟨⟨w,slots⟩,by simp [he],hw',hp⟩
  · exact ⟨p,rfl,hw,.refl _⟩

end Collect

section Place
variable {p : Pool} (heap : Heap) {fresh : Bundle} (value : BundleValue)

/-- What `place` does: it fills the slot at `_reusableIndex`, or it appends. -/
theorem Store.place_cases (hw : p.toWeakReference.Wf p.container.length)
    (hfresh : p.container.count (some fresh) = 0) :
    (∃ hlt : p.reusableIndex.toNat < p.container.length,
      p.reusableIndex = p.reusableIndex.toNat ∧
      Pool.isReusable heap p.container[p.reusableIndex.toNat] = true ∧
      Store.place p heap fresh value = some ⟨{ p with
        container := p.container.set p.reusableIndex.toNat (some fresh)
        reusableIndex := p.reusableIndex+1 },
        (heap.set fresh (some value)).destroy p.container[p.reusableIndex.toNat]⟩) ∨
    ((∀ hlt : p.reusableIndex.toNat < p.container.length,
        Pool.isReusable heap p.container[p.reusableIndex.toNat] = false) ∧
      Store.place p heap fresh value = some ⟨{ p with container := p.container ++ [some fresh] },
        heap.set fresh (some value)⟩) := by
  obtain ⟨h1,h2,h3,h4,_⟩ := hw
  by_cases hend : p.reusableIndex = p.container.length
  · refine .inr ⟨fun hlt => ?_,by simp [Store.place,hend]⟩
    omega
  · have hlt : p.reusableIndex.toNat < p.container.length := by omega
    have hget := WeakReference.get_of_lt p.container (by omega) hlt
    have hne : p.container[p.reusableIndex.toNat] ≠ some fresh := by
      intro he
      exact List.count_eq_zero.mp hfresh (he ▸ List.getElem_mem hlt)
    have hslot := Pool.isReusable_set heap hne (some value)
    cases hre : Pool.isReusable heap p.container[p.reusableIndex.toNat] with
    | true =>
      refine .inl ⟨hlt,by omega,hre,?_⟩
      simp [Store.place,hend,hget,hslot,hre]
    | false =>
      refine .inr ⟨fun _ => hre,?_⟩
      simp [Store.place,hend,hget,hslot,hre]

end Place

end FluentNet
