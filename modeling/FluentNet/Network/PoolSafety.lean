import FluentNet.Network.Pool
set_option autoImplicit false

/-! No emplace loses or moves a context that is in use. -/

namespace FluentNet
open Runs

def Heap.InUse (heap : Heap) (b : Bundle) : Prop :=
  (heap b).isSome ∧ Pool.isReusable heap (some b) = false

/-- What an emplace may do to the contexts of a heap: those in use stay where they
are and keep their one owner, and at most one of the others goes. -/
structure Heap.SparedBy (heap : Heap) (t : Store) : Prop where
  kept : ∀ b, heap.InUse b → t.pool.container.count (some b) = 1 ∧ t.heap b = heap b
  reusable : ∀ b, (heap b).isSome → t.heap b = none → Pool.isReusable heap (some b) = true
  one : ∀ a b, (heap a).isSome → t.heap a = none → (heap b).isSome → t.heap b = none → a = b

theorem Heap.ne_unused {heap : Heap} {fresh b : Bundle} (hfresh : heap fresh = none)
    (hb : (heap b).isSome) : b ≠ fresh := by
  rintro rfl
  rw [hfresh] at hb
  cases hb

section Emplace
variable {p : Pool} {heap : Heap} {fresh : Bundle} (value : BundleValue)

theorem fill_spares (hs : Store.Wf ⟨p,heap⟩) (hfresh : heap fresh = none)
    (hlt : p.reusableIndex.toNat < p.container.length)
    (hre : Pool.isReusable heap p.container[p.reusableIndex.toNat] = true) :
    let t : Store := ⟨{ p with
      container := p.container.set p.reusableIndex.toNat (some fresh)
      reusableIndex := p.reusableIndex+1 },
      (heap.set fresh (some value)).destroy p.container[p.reusableIndex.toNat]⟩
    t.Wf ∧ heap.SparedBy t := by
  intro t
  have hat : ∀ b, p.container[p.reusableIndex.toNat] = some b → (heap b).isSome ∧ b ≠ fresh := by
    intro b hb
    have hsome := hs.owner (hb ▸ List.getElem_mem hlt)
    exact ⟨hsome,Heap.ne_unused hfresh hsome⟩
  obtain ⟨⟨h1,h2,h3,h4,h5⟩,howned⟩ := hs
  dsimp only at h1 h2 h3 h4 h5 howned
  have hheap : ∀ b, t.heap b = if p.container[p.reusableIndex.toNat] = some b then none
      else if b = fresh then some value else heap b :=
    fun b => Heap.destroy_apply _ _ b
  have hcount : ∀ b, t.pool.container.count (some b) = if (t.heap b).isSome then 1 else 0 := by
    intro b
    have hc := howned b
    rw [hheap]
    simp only [t,List.count_set hlt,hc,beq_iff_eq]
    by_cases hslot : p.container[p.reusableIndex.toNat] = some b
    · obtain ⟨hsome,hne⟩ := hat b hslot
      simp [hslot,hsome,Ne.symm hne]
    · by_cases hb : b = fresh
      · subst hb
        simp [hslot,hfresh]
      · have hbf : fresh ≠ b := fun h => hb h.symm
        simp [hslot,hb,hbf]
  have hgone : ∀ b, (heap b).isSome → t.heap b = none →
      p.container[p.reusableIndex.toNat] = some b := by
    intro b hb hn
    rw [hheap] at hn
    split at hn
    · assumption
    · split at hn
      · cases hn
      · rw [hn] at hb
        cases hb
  refine ⟨⟨?_,hcount⟩,?_,fun b hb hn => hgone b hb hn ▸ hre,fun a b ha hna hb hnb => ?_⟩
  · constructor <;> simp only [t,List.length_set] <;> omega
  · intro b hb
    have hslot : p.container[p.reusableIndex.toNat] ≠ some b := by
      intro h
      rw [h,hb.2] at hre
      cases hre
    have hkept : t.heap b = heap b := by
      rw [hheap,if_neg hslot,if_neg (Heap.ne_unused hfresh hb.1)]
    exact ⟨by rw [hcount,hkept,if_pos hb.1],hkept⟩
  · exact Option.some.inj ((hgone a ha hna).symm.trans (hgone b hb hnb))

theorem append_spares (hs : Store.Wf ⟨p,heap⟩) (hfresh : heap fresh = none) :
    let t : Store := ⟨{ p with container := p.container ++ [some fresh] },
      heap.set fresh (some value)⟩
    t.Wf ∧ heap.SparedBy t := by
  intro t
  obtain ⟨⟨h1,h2,h3,h4,h5⟩,howned⟩ := hs
  dsimp only at h1 h2 h3 h4 h5 howned
  have hcount : ∀ b, t.pool.container.count (some b) = if (t.heap b).isSome then 1 else 0 := by
    intro b
    have hc := howned b
    by_cases hb : b = fresh
    · subst hb
      simp [t,hc,hfresh]
    · have hbf : fresh ≠ b := fun h => hb h.symm
      simp [t,hc,Heap.set_other hb,hbf]
  have hkept : ∀ b, (heap b).isSome → t.heap b = heap b :=
    fun b hb => Heap.set_other (Heap.ne_unused hfresh hb) _
  have hgone : ∀ b, (heap b).isSome → t.heap b ≠ none := by
    intro b hb hn
    rw [hkept b hb] at hn
    simp [hn] at hb
  refine ⟨⟨?_,hcount⟩,fun b hb => ?_,fun b hb hn => absurd hn (hgone b hb),
    fun a b ha hna _ _ => absurd hna (hgone a ha)⟩
  · constructor <;> simp only [t,List.length_append] <;> omega
  · exact ⟨by rw [hcount,hkept b hb.1,if_pos hb.1],hkept b hb.1⟩

theorem Store.Wf.emplace {s : Store} (hs : s.Wf) (token : Token) (hfresh : s.heap fresh = none) :
    ∃ t, s.emplace token fresh = some t ∧ t.Wf ∧ s.heap.SparedBy t := by
  obtain ⟨q,hq,hw,hperm⟩ := Pool.collect_wf s.heap hs.window
  have hq' : Store.Wf ⟨q,s.heap⟩ := ⟨hw,fun b => (hperm.count_eq _).trans (hs.owned b)⟩
  have hnot : q.container.count (some fresh) = 0 := by
    have ho := hq'.owned fresh
    simpa [hfresh] using ho
  have hstep : s.emplace token fresh = Store.place q s.heap fresh ⟨token,Conn.init⟩ := by
    simp [Store.emplace,hq]
  rcases Store.place_cases s.heap ⟨token,Conn.init⟩ hw hnot with
    ⟨hlt,_,hre,he⟩ | ⟨_,he⟩
  · exact ⟨_,hstep.trans he,fill_spares _ hq' hfresh hlt hre⟩
  · exact ⟨_,hstep.trans he,append_spares _ hq' hfresh⟩

end Emplace

theorem Store.Wf.changed {s : Store} (hs : s.Wf) {heap : Heap}
    (halive : ∀ b, (heap b).isSome = (s.heap b).isSome) : Store.Wf { s with heap } :=
  ⟨hs.window,fun b => by rw [hs.owned b,← halive b]⟩

theorem Heap.set_alive {heap : Heap} {b : Bundle} {value : BundleValue} (hb : heap b = some value)
    (value' : BundleValue) (a : Bundle) : (heap.set b (some value') a).isSome = (heap a).isSome := by
  by_cases ha : a = b
  · simp [ha,hb]
  · rw [Heap.set_other ha]

theorem Store.Wf.step {s t : Store} {l : Store.Label} (h : s.step l = some t) (hs : s.Wf) : t.Wf := by
  cases l with
  | emplace token fresh =>
    simp only [Store.step] at h
    split at h
    · rename_i hfresh
      obtain ⟨u,hu,hw,_⟩ := hs.emplace token hfresh
      rw [hu] at h
      cases h
      exact hw
    · cases h
  | change bundle context =>
    simp only [Store.step] at h
    split at h
    · cases h
    · rename_i value hb
      cases h
      exact hs.changed (Heap.set_alive hb _)

/-- In every state that a pool can reach, an emplace stays inside the container,
keeps the window, and spares every context in use. -/
theorem pool_emplace_safe (s : Store) (hs : Path Store.step Any Store.init s) (token : Token)
    (fresh : Bundle) (hfresh : s.heap fresh = none) :
    s.pool.toWeakReference.Wf s.pool.container.length ∧
    ∃ t, s.emplace token fresh = some t ∧
      t.pool.toWeakReference.Wf t.pool.container.length ∧ s.heap.SparedBy t := by
  have hwf := hs.keeps (fun _ _ _ _ he hw => hw.step he) Store.init_wf
  obtain ⟨t,ht,htw,hspares⟩ := hwf.emplace token hfresh
  exact ⟨hwf.window,t,ht,htw.window,hspares⟩

def settlers : List Store.Label := (List.range 17).map (fun i => .emplace 0 i)

def Conn.gone : Conn := { Conn.init with nState := .disconnected }

/-- Contexts 0 and 1 are closed, the second is still held; the emplace of context 17
opens the window, and then context 16 is closed. -/
def departures : List Store.Label :=
  [.change 0 .gone,.change 1 { Conn.gone with lifecycle := some 2 },.emplace 0 17,.change 16 .gone]

instance (heap : Heap) (b : Bundle) : Decidable (heap.InUse b) := inferInstanceAs (Decidable (_ ∧ _))

theorem pool_emplace_safe_open : ∃ s, Path Store.step Any Store.init s ∧
    (s.pool.container.length = 18 ∧ s.pool.left ≤ s.pool.right ∧ s.heap.InUse 1 ∧ s.heap.InUse 17 ∧
      Pool.isReusable s.heap (some 0) ∧ Pool.isReusable s.heap (some 16)) ∧
    s.pool.toWeakReference.Wf s.pool.container.length ∧
    ∃ t, s.emplace 0 18 = some t ∧
      t.pool.toWeakReference.Wf t.pool.container.length ∧ s.heap.SparedBy t := by
  have hrun : (run Store.step Any Store.init (settlers ++ departures)).any (fun s =>
      (s.pool.container.length = 18 ∧ s.pool.left ≤ s.pool.right ∧ s.heap.InUse 1 ∧ s.heap.InUse 17 ∧
        Pool.isReusable s.heap (some 0) ∧ Pool.isReusable s.heap (some 16)) ∧
      s.heap 18 = none) := by decide +kernel
  obtain ⟨s,hs,hcond⟩ := (Option.any_eq_true _ _).mp hrun
  obtain ⟨hopen,hfresh⟩ := of_decide_eq_true hcond
  exact ⟨s,run_path hs,hopen,pool_emplace_safe s (run_path hs) 0 18 hfresh⟩

end FluentNet
