import FluentNet.Network.PoolSafety
import FluentNet.Utils.Reclaim
set_option autoImplicit false

/-! How large a pool grows while only a few of its contexts are in use. -/

namespace FluentNet
open Runs WeakReference

def Store.Within (K : Nat) (s : Store) : Prop :=
  busy (Pool.isReusable s.heap) s.pool.container ≤ K

/-- A step of a run with at most `K` contexts in use that are only closed and let go. -/
def Store.Closing (K : Nat) (s : Store) (l : Store.Label) : Prop :=
  s.Within K ∧ match l with
    | .emplace _ _ => True
    | .change bundle context =>
        Pool.isReusable s.heap (some bundle) = true → context.isReusable = true

/-- When the slot at `_reusableIndex` is in use, so is every slot past it. -/
def Store.NoneBehind (s : Store) : Prop :=
  match s.pool.container.drop s.pool.reusableIndex.toNat with
  | [] => True
  | slot :: rest => Pool.isReusable s.heap slot = false → ∀ slot' ∈ rest, Pool.isReusable s.heap slot' = false

def Store.Reuses (s : Store) : Store.Label → Prop
  | .emplace _ _ => s.NoneBehind
  | .change _ _ => True

def Pool.limit (K : Nat) : Nat := 9*K+60

structure Store.Bounded (K : Nat) (s : Store) : Prop where
  wf : s.Wf
  scan : (s.pool.left = 0 ∧ s.pool.right = -1 ∧ s.pool.reusableIndex.toNat ≤ Pool.GC_THRESHOLD) ∨
    (Pool.GC_THRESHOLD < s.pool.container.length ∧ ∃ r₀,
      Scan (Pool.isReusable s.heap) K s.pool.toWeakReference s.pool.container r₀ 0)
  clear : Clear (Pool.isReusable s.heap) s.pool.toWeakReference s.pool.container
  size : s.pool.container.length ≤ Pool.limit K

theorem Store.init_bounded (K : Nat) : Store.init.Bounded K := by
  refine ⟨Store.init_wf,.inl ⟨rfl,rfl,by decide⟩,fun i _ _ hn => absurd hn (Nat.not_lt_zero i),?_⟩
  simp only [Store.init,Pool.init,List.length_replicate,Pool.PREFETCH,Pool.limit]
  omega

section Emplace
variable {K : Nat} {s : Store}

structure Pool.Ready (K : Nat) (heap : Heap) (p₀ p : Pool) : Prop where
  wf : Store.Wf ⟨p,heap⟩
  few : busy (Pool.isReusable heap) p.container ≤ K
  scan : (p.container.length ≤ Pool.GC_THRESHOLD ∧ p.left = 0 ∧ p.right = -1) ∨
    (Pool.GC_THRESHOLD < p.container.length ∧ ∃ r₀,
      Scan (Pool.isReusable heap) K p.toWeakReference p.container r₀ 2)
  clear : Clear (Pool.isReusable heap) p.toWeakReference p.container
  tail : Tail (Pool.isReusable heap) p₀.toWeakReference p₀.container p.toWeakReference p.container
  size : p.container.length ≤ Pool.limit K

theorem Store.Bounded.collect (hs : s.Bounded K) (hfew : s.Within K) :
    ∃ p, s.pool.collect s.heap = some p ∧ Pool.Ready K s.heap s.pool p := by
  by_cases hsize : s.pool.container.length > Pool.GC_THRESHOLD
  · have hscan : ∃ r₀, Scan (Pool.isReusable s.heap) K s.pool.toWeakReference
        s.pool.container r₀ 0 := by
      rcases hs.scan with ⟨h0,h1,hr⟩ | ⟨_,hscan⟩
      · refine ⟨_,scan_begins hs.wf.window h0 h1 hfew (Nat.le_trans hr ?_) (by omega)⟩
        simp only [Pool.GC_THRESHOLD,scanLimit]
        omega
      · exact hscan
    obtain ⟨r₀,hscan⟩ := hscan
    obtain ⟨w,slots,r₁,he,hperm,hscan'⟩ := updateReusableIndex_scan Pool.STEP hscan hfew (by decide)
    have hlen := hperm.length_eq
    obtain ⟨hclear,htail⟩ := updateReusableIndex_clear Pool.STEP hs.wf.window hs.clear (.inl ⟨rfl,rfl⟩) he
    refine ⟨⟨w,slots⟩,by simp [Pool.collect,hsize,he],⟨hscan'.wf,fun b => ?_⟩,?_,
      .inr ⟨by dsimp only; omega,r₁,hscan'⟩,hclear,htail,?_⟩
    · exact (hperm.count_eq _).trans (hs.wf.owned b)
    · exact Nat.le_trans (Nat.le_of_eq (busy_perm hperm)) hfew
    · exact Nat.le_trans (Nat.le_of_eq hlen) hs.size
  · refine ⟨s.pool,by simp [Pool.collect,hsize],hs.wf,hfew,.inl ⟨by omega,?_⟩,hs.clear,.inl ⟨rfl,rfl⟩,hs.size⟩
    rcases hs.scan with ⟨h0,h1,_⟩ | ⟨hgt,_⟩
    · exact ⟨h0,h1⟩
    · exact absurd hgt hsize

variable {p₀ p : Pool} {heap : Heap} {fresh : Bundle} {value : BundleValue}

theorem reusable_kept {t : Store} (ht : t.Wf) (hfresh : heap fresh = none)
    (hheap : ∀ b, t.heap b = none ∨ b = fresh ∨ t.heap b = heap b) :
    ∀ slot ∈ t.pool.container, Pool.isReusable heap slot = true →
      Pool.isReusable t.heap slot = true := by
  intro slot hslot hre
  cases slot with
  | none => rfl
  | some b =>
    have halive := ht.owner hslot
    rcases hheap b with hn | rfl | hsame
    · simp [hn] at halive
    · simp [Pool.isReusable,hfresh] at hre
    · simpa only [Pool.isReusable,hsame] using hre

theorem fill_bounded (hp : Pool.Ready K heap p₀ p) (hfresh : heap fresh = none)
    (hlt : p.reusableIndex.toNat < p.container.length)
    (hre : Pool.isReusable heap p.container[p.reusableIndex.toNat] = true) :
    Store.Bounded K ⟨{ p with
      container := p.container.set p.reusableIndex.toNat (some fresh)
      reusableIndex := p.reusableIndex+1 },
      (heap.set fresh (some value)).destroy p.container[p.reusableIndex.toNat]⟩ := by
  have hwf := (fill_spares value hp.wf hfresh hlt hre).1
  have hkept := reusable_kept hwf hfresh (fun b => by
    simp only [Heap.destroy_apply]
    split
    · exact .inl rfl
    · by_cases hb : b = fresh
      · exact .inr (.inl hb)
      · exact .inr (.inr (Heap.set_other hb _)))
  refine ⟨hwf,?_,?_,?_⟩
  · rcases hp.scan with ⟨hle,h0,h1⟩ | ⟨hgt,r₀,hscan⟩
    · refine .inl ⟨h0,h1,?_⟩
      dsimp only
      omega
    · exact .inr ⟨by simpa using hgt,r₀,(hscan.fill hlt (some fresh)).mono hkept⟩
  · refine Clear.mono hkept (fun i slot hl hn hslot => ?_)
    have hbelow := next_le_index hp.wf.window
    have hne : p.reusableIndex.toNat ≠ i := by
      intro heq
      exact absurd hn (Nat.not_lt.mpr (heq ▸ hbelow))
    rw [List.getElem?_set_ne hne] at hslot
    exact hp.clear i slot hl hn hslot
  · simpa using hp.size

theorem append_bounded (hp : Pool.Ready K heap p₀ p) (hfresh : heap fresh = none)
    (htaken : p.reusableIndex.toNat < p.container.length →
      ∀ slot ∈ p.container.drop p.reusableIndex.toNat, Pool.isReusable heap slot = false) :
    Store.Bounded K ⟨{ p with container := p.container ++ [some fresh] },
      heap.set fresh (some value)⟩ := by
  have hwf := (append_spares value hp.wf hfresh).1
  have hkept := reusable_kept hwf hfresh (fun b => by
    by_cases hb : b = fresh
    · exact .inr (.inl hb)
    · exact .inr (.inr (Heap.set_other hb _)))
  -- the slots past `_reusableIndex` are all in use
  have htail : p.container.length-p.reusableIndex.toNat ≤ K := by
    by_cases hlt : p.reusableIndex.toNat < p.container.length
    · have hall : (p.container.drop p.reusableIndex.toNat).countP
          (fun slot => !Pool.isReusable heap slot) = p.container.length-p.reusableIndex.toNat := by
        rw [List.countP_eq_length.mpr (fun slot hslot => by simp [htaken hlt slot hslot]),
          List.length_drop]
      have hsub := List.Sublist.countP_le (p := fun slot => !Pool.isReusable heap slot)
        (List.drop_sublist p.reusableIndex.toNat p.container)
      have hfew := hp.few
      simp only [busy] at hfew
      omega
    · omega
  have hindex : p.reusableIndex.toNat ≤ 2*scanLimit K+2 := by
    rcases hp.scan with ⟨hle,_,_⟩ | ⟨_,r₀,hscan⟩
    · have hw := hp.wf.window.index_le
      simp only [Pool.GC_THRESHOLD] at hle
      simp only [scanLimit]
      dsimp only at hw
      omega
    · exact hscan.index_le
  refine ⟨hwf,?_,?_,?_⟩
  · rcases hp.scan with ⟨hle,h0,h1⟩ | ⟨hgt,r₀,hscan⟩
    · refine .inl ⟨h0,h1,?_⟩
      have hw := hp.wf.window.index_le
      dsimp only at hw ⊢
      omega
    · exact .inr ⟨by simp only [List.length_append]; omega,r₀,(hscan.append (some fresh)).mono hkept⟩
  · refine Clear.mono hkept (fun i slot hl hn hslot => ?_)
    have hbelow := next_le_index hp.wf.window
    have hindex := hp.wf.window.index_le
    dsimp only at hn hbelow hindex
    rw [List.getElem?_append_left (by simp only [next] at hn hbelow ⊢; omega)] at hslot
    exact hp.clear i slot hl hn hslot
  · simp only [List.length_append,List.length_singleton,Pool.limit]
    simp only [scanLimit] at hindex
    omega

theorem Store.Bounded.emplace (hs : s.Bounded K) (hfew : s.Within K) {token : Token}
    (hfresh : s.heap fresh = none) (hreuse : s.Reuses (.emplace token fresh)) {t : Store}
    (ht : s.emplace token fresh = some t) : t.Bounded K := by
  obtain ⟨p,hp,hready⟩ := hs.collect hfew
  have hnot : p.container.count (some fresh) = 0 := by
    have ho := hready.wf.owned fresh
    simpa [hfresh] using ho
  have hplace : Store.place p s.heap fresh ⟨token,Conn.init⟩ = some t := by
    simpa [Store.emplace,hp] using ht
  rcases Store.place_cases s.heap ⟨token,Conn.init⟩ hready.wf.window hnot with
    ⟨hlt,_,hre,he⟩ | ⟨htaken,he⟩ <;> rw [he] at hplace <;> cases hplace
  · exact fill_bounded hready hfresh hlt hre
  · refine append_bounded hready hfresh (fun hlt => ?_)
    rcases hready.tail with ⟨hindex,htail⟩ | hre
    · rw [← hindex] at htail
      have hsame : s.pool.container.drop s.pool.reusableIndex.toNat =
          p.container[p.reusableIndex.toNat] :: p.container.drop (p.reusableIndex.toNat+1) := by
        rw [← hindex,← htail,List.drop_eq_getElem_cons hlt]
      have hbehind : s.NoneBehind := hreuse
      rw [Store.NoneBehind,hsame] at hbehind
      rw [List.drop_eq_getElem_cons hlt]
      exact List.forall_mem_cons.mpr ⟨htaken hlt,hbehind (htaken hlt)⟩
    -- a merge hands out a slot that is reusable
    · have hslot := hre _ (List.getElem?_eq_getElem hlt)
      rw [htaken hlt] at hslot
      cases hslot

end Emplace

theorem Store.Bounded.step {K : Nat} {s t : Store} {l : Store.Label} (hc : s.Closing K l)
    (hreuse : s.Reuses l) (h : s.step l = some t) (hs : s.Bounded K) : t.Bounded K := by
  cases l with
  | emplace token fresh =>
    simp only [Store.step] at h
    split at h
    · rename_i hfresh
      exact hs.emplace hc.1 hfresh hreuse h
    · cases h
  | change bundle context =>
    have hwf := hs.wf.step h
    simp only [Store.step] at h
    split at h
    · cases h
    · rename_i value hb
      cases h
      have hkept : ∀ slot ∈ s.pool.container, Pool.isReusable s.heap slot = true →
          Pool.isReusable (s.heap.set bundle (some { value with context })) slot = true := by
        intro slot _ hre
        by_cases hslot : slot = some bundle
        · rw [hslot] at hre ⊢
          simpa [Pool.isReusable] using hc.2 hre
        · rwa [Pool.isReusable_set s.heap hslot]
      refine ⟨hwf,hs.scan.imp_right ?_,hs.clear.mono hkept,hs.size⟩
      rintro ⟨hgt,r₀,hscan⟩
      exact ⟨hgt,r₀,hscan.mono hkept⟩

instance (K : Nat) (s : Store) : Decidable (s.Within K) := inferInstanceAs (Decidable (_ ≤ _))

instance (K : Nat) (s : Store) (l : Store.Label) : Decidable (s.Closing K l) :=
  match l with
  | .emplace _ _ => inferInstanceAs (Decidable (_ ∧ True))
  | .change _ _ => inferInstanceAs (Decidable (_ ∧ (_ → _)))

instance (s : Store) : Decidable s.NoneBehind := by
  unfold Store.NoneBehind
  split <;> infer_instance

instance (s : Store) (l : Store.Label) : Decidable (s.Reuses l) :=
  match l with
  | .emplace _ _ => inferInstanceAs (Decidable s.NoneBehind)
  | .change _ _ => .isTrue trivial

/-- While emplaces leave no reusable slot behind, the size of a pool is bounded by the
number of contexts in use at a time. -/
theorem pool_bounded_when_reusing (K : Nat) : ∃ B, ∀ s,
    Path Store.step (fun s l => s.Closing K l ∧ s.Reuses l) Store.init s →
      s.pool.container.length ≤ B :=
  ⟨Pool.limit K,fun _ hs => (hs.keeps (fun _ _ _ hc he hb => hb.step hc.1 hc.2 he)
    (Store.init_bounded K)).size⟩

/-- Seventeen contexts close, and twenty more come and go. -/
def visitors : List Store.Label :=
  (List.range 17).map (fun i => .change i .gone) ++
  (List.range 20).flatMap (fun i => [.emplace 0 (17+i),.change (17+i) .gone])

/-- The thirty-seven contexts have left 22 slots, and the last of them is in the first. -/
theorem pool_bounded_when_reusing_visitors : ∃ B s,
    Path Store.step (fun s l => s.Closing 17 l ∧ s.Reuses l) Store.init s ∧
      s.pool.container.length ≤ B ∧ s.pool.container.length = 22 ∧ s.pool.container[0]? = some (some 36) := by
  obtain ⟨B,hB⟩ := pool_bounded_when_reusing 17
  have hrun : (run Store.step (fun s l => s.Closing 17 l ∧ s.Reuses l) Store.init
      (settlers ++ visitors)).any (fun s =>
        s.pool.container.length = 22 ∧ s.pool.container[0]? = some (some 36)) := by decide +kernel
  obtain ⟨s,hs,hcond⟩ := (Option.any_eq_true _ _).mp hrun
  exact ⟨B,s,run_path hs,hB s (run_path hs),of_decide_eq_true hcond⟩

section Growth

/-- The slots up to the one at `_reusableIndex` are in use for good, so no scan opens
its window and the slots after them are never looked at. -/
structure Store.Blocked (n : Nat) (s : Store) : Prop where
  wf : s.Wf
  index : s.pool.reusableIndex = 16
  window : s.pool.left = s.pool.right+1 ∧ s.pool.left < 16
  front : ∀ slot ∈ s.pool.container.take 17, Pool.isReusable s.heap slot = false
  rest : ∀ slot ∈ s.pool.container.drop 17, Pool.isReusable s.heap slot = true
  size : s.pool.container.length = 17+n

variable {n : Nat} {s : Store}

theorem Store.Blocked.front_at (hs : s.Blocked n) {i : Nat} (hi : i < 17)
    (hlt : i < s.pool.container.length) : Pool.isReusable s.heap s.pool.container[i] = false := by
  have htake : i < (s.pool.container.take 17).length := by
    rw [List.length_take]
    omega
  have hget := List.getElem_take (h := htake)
  exact hs.front _ (hget ▸ List.getElem_mem htake)

theorem Store.Blocked.busy_eq (hs : s.Blocked n) :
    busy (Pool.isReusable s.heap) s.pool.container ≤ 17 := by
  have hsplit := List.take_append_drop 17 s.pool.container
  have hrest : (s.pool.container.drop 17).countP (fun slot => !Pool.isReusable s.heap slot) = 0 :=
    List.countP_eq_zero.mpr (fun slot hslot => by simp [hs.rest slot hslot])
  rw [busy,← hsplit,List.countP_append,hrest]
  exact Nat.le_trans List.countP_le_length (by rw [List.length_take]; omega)

theorem doUpdate_blocked {w : WeakReference} (hw : w.Wf s.pool.container.length)
    (hs : s.Blocked n) (hr : w.reusableIndex = 16) (hc : w.left = w.right+1 ∧ w.left < 16) :
    ∃ w', doUpdate (Pool.isReusable s.heap) w s.pool.container = some (w',s.pool.container) ∧
      w'.Wf s.pool.container.length ∧ w'.reusableIndex = 16 ∧ w'.left = w'.right+1 ∧ w'.left < 16 := by
  obtain ⟨hcl,hlt⟩ := hc
  have h0 := hw.left_nonneg
  rcases doUpdate_cases (Pool.isReusable s.heap) hw (by omega) with
    ⟨hle,_,_⟩ | ⟨_,hp,hl,⟨hre,_⟩ | ⟨_,he⟩⟩
  · omega
  · rw [hs.front_at (by omega) hp] at hre
    cases hre
  · have hi : w.left.toNat = (w.right+1).toNat := by rw [hcl]
    have hset : (s.pool.container.set (w.right+1).toNat s.pool.container[w.left.toNat]).set
        w.left.toNat s.pool.container[(w.right+1).toNat] = s.pool.container := by simp [hi]
    rw [hset] at he
    refine ⟨_,he,passed_wf hw (by omega),?_⟩
    unfold passed
    split
    · simp [resetWindow,hr]
    · exact ⟨hr,by dsimp only; omega,by dsimp only; omega⟩

theorem Store.Blocked.collect (hs : s.Blocked n) :
    ∃ w, s.pool.collect s.heap = some { toWeakReference := w, container := s.pool.container } ∧
      w.Wf s.pool.container.length ∧ w.reusableIndex = 16 ∧ w.left = w.right+1 ∧ w.left < 16 := by
  have hsize := hs.size
  obtain ⟨w₁,h₁,hw₁,hr₁,hc₁⟩ := doUpdate_blocked hs.wf.window hs hs.index hs.window
  obtain ⟨w₂,h₂,hw₂,hr₂,hc₂⟩ := doUpdate_blocked hw₁ hs hr₁ hc₁
  refine ⟨w₂,?_,hw₂,hr₂,hc₂⟩
  have hgt : s.pool.container.length > Pool.GC_THRESHOLD := by
    simp only [Pool.GC_THRESHOLD]
    omega
  simp [Pool.collect,hgt,Pool.STEP,updateReusableIndex,hs.index,h₁,hr₁,h₂]

theorem exists_fresh (slots : List (Option Nat)) : ∃ b, ∀ a, b ≤ a → some a ∉ slots := by
  induction slots with
  | nil => exact ⟨0,by simp⟩
  | cons slot slots ih =>
    obtain ⟨b,hb⟩ := ih
    cases slot with
    | none => exact ⟨b,fun a ha => by simpa using hb a ha⟩
    | some c => exact ⟨b+c+1,fun a ha => by
        have hne : a ≠ c := by omega
        simpa [hne] using hb a (by omega)⟩

/-- One more connection that comes and goes is one more slot. -/
theorem Store.Blocked.grow (hs : s.Blocked n) :
    ∃ t, Path Store.step (fun s l => s.Closing 18 l) s t ∧ t.Blocked (n+1) := by
  obtain ⟨w,hcollect,hw,hr,hc,hlt⟩ := hs.collect
  obtain ⟨f,hf⟩ := exists_fresh s.pool.container
  have hnew : some f ∉ s.pool.container := hf f (Nat.le_refl f)
  have hnot : s.pool.container.count (some f) = 0 := List.count_eq_zero.mpr hnew
  have hfresh : s.heap f = none := by
    have ho := hs.wf.owned f
    rw [hnot] at ho
    simpa using ho
  have hne : ∀ slot ∈ s.pool.container, slot ≠ some f := fun slot hslot he => hnew (he ▸ hslot)
  have hsize := hs.size
  let heap₁ : Heap := s.heap.set f (some ⟨0,Conn.init⟩)
  let heap₂ : Heap := heap₁.set f (some ⟨0,Conn.gone⟩)
  let pool : Pool := { toWeakReference := w, container := s.pool.container ++ [some f] }
  have hemplace : s.step (.emplace 0 f) = some ⟨pool,heap₁⟩ := by
    rcases Store.place_cases (p := { toWeakReference := w, container := s.pool.container })
      s.heap ⟨0,Conn.init⟩ hw hnot with ⟨hl,_,hre,_⟩ | ⟨_,he⟩
    · have hfront := hs.front_at (i := w.reusableIndex.toNat) (by omega) hl
      exact absurd (hfront.symm.trans hre) (by decide)
    · simp only [Store.step,hfresh,Store.emplace,hcollect]
      exact he
  have hchange : Store.step ⟨pool,heap₁⟩ (.change f Conn.gone) = some ⟨pool,heap₂⟩ := by
    simp [Store.step,heap₁,heap₂]
  have hwithin : s.Within 18 := Nat.le_trans hs.busy_eq (by omega)
  have hwithin₁ : Store.Within 18 ⟨pool,heap₁⟩ := by
    have hold : s.pool.container.countP (fun slot => !Pool.isReusable heap₁ slot) =
        s.pool.container.countP (fun slot => !Pool.isReusable s.heap slot) :=
      List.countP_congr (fun slot hslot => by simp [heap₁,Pool.isReusable_set s.heap (hne slot hslot)])
    have hone : [some f].countP (fun slot => !Pool.isReusable heap₁ slot) ≤ 1 :=
      List.countP_le_length
    have hbusy := hs.busy_eq
    simp only [busy] at hbusy
    simp only [Store.Within,busy,pool,List.countP_append,hold]
    exact Nat.add_le_add hbusy hone
  have hkept : ∀ slot ∈ s.pool.container, Pool.isReusable heap₂ slot = Pool.isReusable s.heap slot := by
    intro slot hslot
    rw [Pool.isReusable_set heap₁ (hne slot hslot),Pool.isReusable_set s.heap (hne slot hslot)]
  have hpath : Path Store.step (fun s l => s.Closing 18 l) s ⟨pool,heap₂⟩ :=
    (Path.next .refl ⟨hwithin,trivial⟩ hemplace).next ⟨hwithin₁,fun _ => rfl⟩ hchange
  refine ⟨_,hpath,?_,hr,⟨hc,hlt⟩,?_,?_,?_⟩
  · exact (hs.wf.step hemplace).step hchange
  · intro slot hslot
    rw [List.take_append_of_le_length (by omega)] at hslot
    rw [hkept slot (List.mem_of_mem_take hslot)]
    exact hs.front slot hslot
  · intro slot hslot
    rw [List.drop_append_of_le_length (by omega)] at hslot
    rcases List.mem_append.mp hslot with hslot | hslot
    · rw [hkept slot (List.mem_of_mem_drop hslot)]
      exact hs.rest slot hslot
    · rw [List.mem_singleton.mp hslot]
      simp only [Pool.isReusable,heap₂,Heap.set_self]
      rfl
  · simp only [pool,List.length_append,List.length_singleton]
    omega

theorem exists_blocked (n : Nat) :
    ∃ t, Path Store.step (fun s l => s.Closing 18 l) Store.init t ∧ t.Blocked n := by
  induction n with
  | zero =>
    have hrun : (run Store.step (fun s l => s.Closing 18 l) Store.init settlers).any (fun s =>
        s.pool.reusableIndex = 16 ∧ (s.pool.left = s.pool.right+1 ∧ s.pool.left < 16) ∧
        (∀ slot ∈ s.pool.container, Pool.isReusable s.heap slot = false) ∧
        s.pool.container.length = 17) := by decide +kernel
    obtain ⟨s,hs,hcond⟩ := (Option.any_eq_true _ _).mp hrun
    obtain ⟨hr,hw,hall,hlen⟩ := of_decide_eq_true hcond
    have hpath := run_path hs
    refine ⟨s,hpath,hpath.keeps (fun _ _ _ _ he hw => hw.step he) Store.init_wf,hr,hw,?_,?_,hlen⟩
    · exact fun slot hslot => hall slot (List.mem_of_mem_take hslot)
    · simp [List.drop_of_length_le (Nat.le_of_eq hlen)]
  | succ n ih =>
    obtain ⟨s,hs,hb⟩ := ih
    obtain ⟨t,ht,hb'⟩ := hb.grow
    exact ⟨t,Relation.ReflTransGen.trans hs ht,hb'⟩

/-- Seventeen connections stay, and each one that comes and goes costs a slot. -/
theorem pool_unbounded : ¬∀ K, ∃ B, ∀ s,
    Path Store.step (fun s l => s.Closing K l) Store.init s → s.pool.container.length ≤ B := by
  intro hall
  obtain ⟨B,hB⟩ := hall 18
  obtain ⟨s,hs,hb⟩ := exists_blocked B
  have hle := hB s hs
  have hsize := hb.size
  omega

end Growth

end FluentNet
