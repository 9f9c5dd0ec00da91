import FluentNet.Utils.WeakReference
set_option autoImplicit false

/-!
How far the collector lets `_reusableIndex` run. One scan goes from a reset of the
window to the next; two slots are looked at for each one that is handed out, and
every slot in use that a scan meets was in use when it began or was handed out since.
-/

namespace FluentNet
namespace WeakReference
variable {α : Type} (isReusable : α → Bool)

def inUse (slots : List α) (lo hi : Nat) : Nat :=
  ((slots.take hi).drop lo).countP (fun slot => !isReusable slot)

def busy (slots : List α) : Nat := slots.countP (fun slot => !isReusable slot)

section InUse
variable {slots : List α} {lo hi : Nat}

theorem inUse_le_busy (slots : List α) (lo hi : Nat) : inUse isReusable slots lo hi ≤ busy isReusable slots :=
  List.Sublist.countP_le ((List.drop_sublist _ _).trans (List.take_sublist _ _))

theorem inUse_next (hlt : lo < hi) (hlen : lo < slots.length) :
    inUse isReusable slots lo hi =
      (if isReusable slots[lo] then 0 else 1)+inUse isReusable slots (lo+1) hi := by
  have htake : lo < (slots.take hi).length := by
    rw [List.length_take]
    omega
  simp only [inUse,List.drop_eq_getElem_cons htake,List.countP_cons,List.getElem_take]
  cases isReusable slots[lo] <;> simp [Nat.add_comm]

theorem inUse_set_below {i : Nat} (h : i < lo) (slot : α) :
    inUse isReusable (slots.set i slot) lo hi = inUse isReusable slots lo hi := by
  simp only [inUse,List.take_set,List.drop_set_of_lt h]

theorem inUse_set_above {i : Nat} (h : hi ≤ i) (slot : α) :
    inUse isReusable (slots.set i slot) lo hi = inUse isReusable slots lo hi := by
  simp only [inUse,List.take_set_of_le h]

theorem inUse_append (h : hi ≤ slots.length) (more : List α) :
    inUse isReusable (slots ++ more) lo hi = inUse isReusable slots lo hi := by
  simp only [inUse,List.take_append_of_le_length h]

theorem inUse_fill (lo : Nat) (hlen : hi < slots.length) (slot : α) :
    inUse isReusable (slots.set hi slot) lo (hi+1) ≤ inUse isReusable slots lo hi+1 := by
  have htake : (slots.set hi slot).take (hi+1) = slots.take hi ++ [slot] := by
    rw [List.take_succ_eq_append_getElem (by simpa using hlen),List.take_set_of_le (Nat.le_refl _)]
    simp
  rw [inUse,htake,List.drop_append,List.countP_append]
  have hone : ([slot].drop (lo-(slots.take hi).length)).countP (fun slot => !isReusable slot) ≤ 1 :=
    Nat.le_trans List.countP_le_length (by simp only [List.length_drop,List.length_singleton]; omega)
  exact Nat.add_le_add_left hone _

end InUse

def next (w : WeakReference) : Nat := (w.right+1).toNat

theorem next_le_index {w : WeakReference} {size : Nat} (hw : w.Wf size) : w.next ≤ w.reusableIndex.toNat := by
  have hr := hw.right_le
  simp only [next]
  omega

/-- The furthest that a scan may begin at when at most `K` slots are in use. -/
def scanLimit (K : Nat) : Nat := 4*K+20

/-- A scan that began with `_reusableIndex` at `r₀`, with `d` slots looked at since
the last one was handed out. Before `r₀` it meets slots in use since it began; past
`r₀` each turn that hands a slot out uses up the room that is left. -/
structure Scan (K : Nat) (w : WeakReference) (slots : List α) (r₀ d : Nat) : Prop where
  wf : w.Wf slots.length
  limit : r₀ ≤ scanLimit K
  begun : r₀ ≤ w.reusableIndex.toNat
  pace : 2*w.reusableIndex.toNat+d ≤ 2*r₀+w.next+2
  phase : (w.next ≤ r₀ ∧ w.left.toNat+inUse isReusable slots w.next r₀ ≤ K) ∨
    (r₀ ≤ w.next ∧ 2*(w.left.toNat+inUse isReusable slots w.next w.reusableIndex.toNat+
      (w.reusableIndex.toNat-w.next)+d) ≤ 4*K+r₀+4)

section Scan
variable {isReusable : α → Bool} {K r₀ d : Nat} {w : WeakReference} {slots : List α}

theorem scan_begins (hw : w.Wf slots.length) (h0 : w.left = 0) (h1 : w.right = -1)
    (hfew : busy isReusable slots ≤ K) (hr : w.reusableIndex.toNat ≤ scanLimit K) (hd : d ≤ 2) :
    Scan isReusable K w slots w.reusableIndex.toNat d := by
  have hn : w.next = 0 := by simp [next,h1]
  refine ⟨hw,hr,Nat.le_refl _,by omega,.inl ⟨by omega,?_⟩⟩
  have hle := inUse_le_busy isReusable slots w.next w.reusableIndex.toNat
  simp only [h0,Int.toNat_zero]
  omega

theorem Scan.late (hs : Scan isReusable K w slots r₀ d) (hfew : busy isReusable slots ≤ K)
    (hd : d ≤ 1) (hn : r₀ ≤ w.next) :
    2*(w.left.toNat+inUse isReusable slots w.next w.reusableIndex.toNat+
      (w.reusableIndex.toNat-w.next)+d) ≤ 4*K+r₀+4 := by
  rcases hs.phase with ⟨hle,hearly⟩ | ⟨_,hlate⟩
  · have hle' := inUse_le_busy isReusable slots w.next w.reusableIndex.toNat
    have hp := hs.pace
    omega
  · exact hlate

theorem Scan.advance (hs : Scan isReusable K w slots r₀ d) (hfew : busy isReusable slots ≤ K)
    (hd : d ≤ 1) (hlt : w.right+1 < w.reusableIndex) (hlen : w.next < slots.length) (use : Nat)
    (huse : use = if isReusable slots[w.next] then 0 else 1) :
    (w.next+1 ≤ r₀ ∧ w.left.toNat+use+inUse isReusable slots (w.next+1) r₀ ≤ K) ∨
    (r₀ ≤ w.next+1 ∧ 2*(w.left.toNat+use+inUse isReusable slots (w.next+1) w.reusableIndex.toNat+
      (w.reusableIndex.toNat-(w.next+1))+(d+1)) ≤ 4*K+r₀+4) := by
  have hwf := hs.wf
  have hr : w.next < w.reusableIndex.toNat := by
    have h1 := hwf.left_nonneg
    have h2 := hwf.left_le
    simp only [next]
    omega
  by_cases hn : w.next < r₀
  · rcases hs.phase with ⟨_,hearly⟩ | ⟨hle,_⟩
    · rw [inUse_next _ hn hlen] at hearly
      exact .inl ⟨hn,by omega⟩
    · omega
  · have hlate := hs.late hfew hd (by omega)
    rw [inUse_next _ hr hlen] at hlate
    exact .inr ⟨by omega,by omega⟩

theorem busy_perm {slots' : List α} (h : slots'.Perm slots) :
    busy isReusable slots' = busy isReusable slots := h.countP_eq _

theorem doUpdate_scan (hs : Scan isReusable K w slots r₀ d) (hfew : busy isReusable slots ≤ K)
    (hd : d ≤ 1) (hr : w.reusableIndex ≠ 0) :
    ∃ w' slots' r₁, doUpdate isReusable w slots = some (w',slots') ∧ slots'.Perm slots ∧
      Scan isReusable K w' slots' r₁ (d+1) := by
  obtain ⟨w',slots',he,hw',hperm⟩ := doUpdate_wf isReusable hs.wf hr
  have hfew' : busy isReusable slots' ≤ K := by rwa [busy_perm hperm]
  have hlimit := hs.limit
  have hpace := hs.pace
  have hbegun := hs.begun
  obtain ⟨h1,h2,h3,h4,h5⟩ := hs.wf
  simp only [scanLimit] at hlimit
  rcases doUpdate_cases isReusable hs.wf hr with
    ⟨_,hend,hm⟩ | ⟨hlt,hp,hl,⟨hre,hm⟩ | ⟨hre,hm⟩⟩ <;> rw [he] at hm <;> cases hm
  · have hlate := hs.late hfew hd (by simp only [next]; omega)
    refine ⟨_,_,_,he,hperm,scan_begins hw' rfl rfl hfew' ?_ (by omega)⟩
    simp only [scanLimit]
    omega
  · have hadv := hs.advance hfew hd hlt hp 0 (if_pos hre).symm
    have hn : next { w with right := w.right+1 } = w.next+1 := by
      simp only [next]
      omega
    refine ⟨_,_,r₀,he,hperm,hw',hs.limit,hbegun,?_,?_⟩
    · rw [hn]
      dsimp only
      omega
    · rw [hn]
      exact hadv
  · have hadv := hs.advance hfew hd hlt hp 1 (by simp only [next,hre]; rfl)
    by_cases hreset : w.left+1 = w.reusableIndex
    · have hpassed : w.passed = w.resetWindow := if_pos hreset
      rw [hpassed] at he hw'
      refine ⟨_,_,_,he,hperm,scan_begins hw' rfl rfl hfew' ?_ (by omega)⟩
      simp only [scanLimit,resetWindow]
      omega
    · have hpassed : w.passed = { w with left := w.left+1, right := w.right+1 } := if_neg hreset
      rw [hpassed] at he hw'
      have hn : next { w with left := w.left+1, right := w.right+1 } = w.next+1 := by
        simp only [next]
        omega
      have hsame : ∀ hi, inUse isReusable ((slots.set (w.right+1).toNat slots[w.left.toNat]).set
          w.left.toNat slots[(w.right+1).toNat]) (w.next+1) hi =
          inUse isReusable slots (w.next+1) hi := by
        intro hi
        rw [inUse_set_below _ (by simp only [next]; omega),inUse_set_below _ (by simp only [next]; omega)]
      have hleft : (w.left+1).toNat = w.left.toNat+1 := by omega
      refine ⟨_,_,r₀,he,hperm,hw',hs.limit,hbegun,?_,?_⟩
      · rw [hn]
        dsimp only
        omega
      · rw [hn]
        simp only [hsame,hleft]
        exact hadv

theorem updateReusableIndex_scan (n : Nat) (hs : Scan isReusable K w slots r₀ d)
    (hfew : busy isReusable slots ≤ K) (hd : d+n ≤ 2) :
    ∃ w' slots' r₁, updateReusableIndex isReusable n w slots = some (w',slots') ∧
      slots'.Perm slots ∧ Scan isReusable K w' slots' r₁ (d+n) := by
  induction n generalizing w slots r₀ d with
  | zero => exact ⟨w,slots,r₀,rfl,.refl _,hs⟩
  | succ n ih =>
    by_cases hr : w.reusableIndex ≠ 0
    · obtain ⟨w₁,slots₁,r₁,h₁,hp₁,hs₁⟩ := doUpdate_scan hs hfew (by omega) hr
      obtain ⟨w₂,slots₂,r₂,h₂,hp₂,hs₂⟩ := ih hs₁ (by rwa [busy_perm hp₁]) (by omega)
      refine ⟨w₂,slots₂,r₂,by simp [updateReusableIndex,hr,h₁,h₂],hp₂.trans hp₁,?_⟩
      rwa [Nat.add_right_comm] at hs₂
    · have h0 : w.reusableIndex = 0 := by simpa using hr
      obtain ⟨h1,h2,h3,_,h5⟩ := hs.wf
      exact ⟨w,slots,_,by simp [updateReusableIndex,hr],.refl _,
        scan_begins hs.wf (by omega) (by omega) hfew (by simp [h0]) hd⟩

/-- However long the run, `_reusableIndex` stays near the start of the scan. -/
theorem Scan.index_le (hs : Scan isReusable K w slots r₀ d) :
    w.reusableIndex.toNat ≤ 2*scanLimit K+2 := by
  obtain ⟨h1,h2,h3,_,_⟩ := hs.wf
  have hp := hs.pace
  have hl := hs.limit
  have hn : w.next ≤ w.reusableIndex.toNat := by
    simp only [next]
    omega
  omega

theorem Scan.fill (hs : Scan isReusable K w slots r₀ 2)
    (hlt : w.reusableIndex.toNat < slots.length) (slot : α) :
    Scan isReusable K { w with reusableIndex := w.reusableIndex+1 }
      (slots.set w.reusableIndex.toNat slot) r₀ 0 := by
  obtain ⟨h1,h2,h3,h4,h5⟩ := hs.wf
  have hp := hs.pace
  have hb := hs.begun
  have hr : (w.reusableIndex+1).toNat = w.reusableIndex.toNat+1 := by omega
  have hn : next { w with reusableIndex := w.reusableIndex+1 } = w.next := rfl
  have hnr : w.next ≤ w.reusableIndex.toNat := by
    simp only [next]
    omega
  refine ⟨?_,hs.limit,?_,?_,?_⟩
  · constructor <;> simp only [List.length_set] <;> omega
  · rw [hr]
    omega
  · rw [hr,hn]
    omega
  · rw [hr,hn]
    rcases hs.phase with ⟨hle,hearly⟩ | ⟨hle,hlate⟩
    · exact .inl ⟨hle,by rwa [inUse_set_above _ hb]⟩
    · have hone := inUse_fill isReusable w.next hlt slot
      refine .inr ⟨hle,?_⟩
      dsimp only
      omega

theorem Scan.append (hs : Scan isReusable K w slots r₀ d) (slot : α) :
    Scan isReusable K w (slots ++ [slot]) r₀ 0 := by
  obtain ⟨h1,h2,h3,h4,h5⟩ := hs.wf
  have hp := hs.pace
  have hb := hs.begun
  have hr : w.reusableIndex.toNat ≤ slots.length := by omega
  refine ⟨?_,hs.limit,hb,by omega,?_⟩
  · exact ⟨h1,h2,h3,by simp only [List.length_append]; omega,h5⟩
  · rw [inUse_append _ (by omega),inUse_append _ hr]
    exact hs.phase.imp_right (fun ⟨hle,hlate⟩ => ⟨hle,by omega⟩)

theorem Scan.mono {isReusable' : α → Bool}
    (himp : ∀ slot ∈ slots, isReusable slot = true → isReusable' slot = true)
    (hs : Scan isReusable K w slots r₀ d) : Scan isReusable' K w slots r₀ d := by
  have hle : ∀ lo hi, inUse isReusable' slots lo hi ≤ inUse isReusable slots lo hi := by
    intro lo hi
    refine List.countP_mono_left (fun slot hslot hnot => ?_)
    have hmem := List.mem_of_mem_take (List.mem_of_mem_drop hslot)
    cases hre : isReusable slot with
    | false => rfl
    | true => simp [himp slot hmem hre] at hnot
  have h1 := hle w.next r₀
  have h2 := hle w.next w.reusableIndex.toNat
  exact ⟨hs.wf,hs.limit,hs.begun,hs.pace,hs.phase.imp (fun ⟨ha,hb⟩ => ⟨ha,by omega⟩)
    (fun ⟨ha,hb⟩ => ⟨ha,by omega⟩)⟩

end Scan

/-- The window is open on reusable slots only. -/
def Clear (w : WeakReference) (slots : List α) : Prop :=
  ∀ i slot, w.left.toNat ≤ i → i < w.next → slots[i]? = some slot → isReusable slot = true

/-- What the collector leaves of the slots from `_reusableIndex` on: all of them, or a
merge has moved the index down to a slot that is reusable. -/
def Tail (w₀ : WeakReference) (slots₀ : List α) (w : WeakReference) (slots : List α) : Prop :=
  (w.reusableIndex = w₀.reusableIndex ∧
    slots.drop w₀.reusableIndex.toNat = slots₀.drop w₀.reusableIndex.toNat) ∨
  ∀ slot, slots[w.reusableIndex.toNat]? = some slot → isReusable slot = true

section Clear
variable {isReusable : α → Bool} {w w₀ : WeakReference} {slots slots₀ : List α}

theorem Clear.mono {isReusable' : α → Bool}
    (himp : ∀ slot ∈ slots, isReusable slot = true → isReusable' slot = true)
    (hc : Clear isReusable w slots) : Clear isReusable' w slots :=
  fun i slot hl hn hslot => himp slot (List.mem_of_getElem? hslot) (hc i slot hl hn hslot)

/-- Slots below `_reusableIndex` may be swapped, those from it on stay. -/
theorem Tail.kept (ht : Tail isReusable w₀ slots₀ w slots) {w' : WeakReference} {slots' : List α}
    (hr : w'.reusableIndex = w.reusableIndex)
    (hd : slots'.drop w.reusableIndex.toNat = slots.drop w.reusableIndex.toNat) :
    Tail isReusable w₀ slots₀ w' slots' := by
  rcases ht with ⟨hi,hs⟩ | hre
  · rw [hi] at hd
    exact .inl ⟨hr.trans hi,hd.trans hs⟩
  · refine .inr (fun slot hslot => hre slot ?_)
    have hhead := congrArg List.head? hd
    rw [List.head?_drop,List.head?_drop] at hhead
    rw [← hhead,← hr]
    exact hslot

theorem doUpdate_clear (hw : w.Wf slots.length) (hr : w.reusableIndex ≠ 0)
    (hc : Clear isReusable w slots) (ht : Tail isReusable w₀ slots₀ w slots) :
    ∃ w' slots', doUpdate isReusable w slots = some (w',slots') ∧ w'.Wf slots'.length ∧
      Clear isReusable w' slots' ∧ Tail isReusable w₀ slots₀ w' slots' := by
  obtain ⟨w',slots',he,hw',_⟩ := doUpdate_wf isReusable hw hr
  refine ⟨w',slots',he,hw',?_⟩
  obtain ⟨h1,h2,h3,h4,h5⟩ := hw
  rcases doUpdate_cases isReusable ⟨h1,h2,h3,h4,h5⟩ hr with
    ⟨hle,hend,hm⟩ | ⟨hlt,hp,hl,⟨hre,hm⟩ | ⟨hre,hm⟩⟩ <;> rw [he] at hm <;> cases hm
  · refine ⟨fun i slot _ hn => absurd hn (by simp [next]),.inr (fun slot hslot => ?_)⟩
    exact hc _ slot (Nat.le_refl _) (by simp only [next]; omega) hslot
  · refine ⟨fun i slot hi hn hslot => ?_,ht.kept rfl rfl⟩
    by_cases hat : i = (w.right+1).toNat
    · subst hat
      rw [List.getElem?_eq_getElem hp] at hslot
      exact Option.some.inj hslot ▸ hre
    · refine hc i slot hi ?_ hslot
      simp only [next] at hn ⊢
      omega
  · have hsame : w.passed.reusableIndex = w.reusableIndex := by
      unfold passed
      split <;> rfl
    refine ⟨fun i slot hi hn hslot => ?_,ht.kept hsame ?_⟩
    · by_cases hreset : w.left+1 = w.reusableIndex
      · rw [passed,if_pos hreset] at hn
        simp [next,resetWindow] at hn
      · rw [passed,if_neg hreset] at hi hn
        simp only [next] at hi hn
        -- the slot that was passed has changed places with the first of the window
        by_cases hat : i = (w.right+1).toNat
        · have hleft : slots[w.left.toNat]? = some slot := by
            have hne : w.left.toNat ≠ i := by omega
            rw [List.getElem?_set_ne hne,hat,List.getElem?_set_self hp] at hslot
            rw [List.getElem?_eq_getElem hl]
            exact hslot
          exact hc _ slot (Nat.le_refl _) (by simp only [next]; omega) hleft
        · have hne : w.left.toNat ≠ i := by omega
          rw [List.getElem?_set_ne hne,List.getElem?_set_ne (fun h => hat h.symm)] at hslot
          exact hc i slot (by omega) (by simp only [next]; omega) hslot
    · rw [List.drop_set_of_lt (by omega),List.drop_set_of_lt (by omega)]

theorem updateReusableIndex_clear (n : Nat) (hw : w.Wf slots.length) (hc : Clear isReusable w slots)
    (ht : Tail isReusable w₀ slots₀ w slots) {w' : WeakReference} {slots' : List α}
    (h : updateReusableIndex isReusable n w slots = some (w',slots')) :
    Clear isReusable w' slots' ∧ Tail isReusable w₀ slots₀ w' slots' := by
  induction n generalizing w slots with
  | zero =>
    cases h
    exact ⟨hc,ht⟩
  | succ n ih =>
    by_cases hr : w.reusableIndex ≠ 0
    · obtain ⟨w₁,slots₁,h₁,hw₁,hc₁,ht₁⟩ := doUpdate_clear hw hr hc ht
      simp only [updateReusableIndex,if_pos hr,h₁,Option.bind_eq_bind,Option.bind_some] at h
      exact ih hw₁ hc₁ ht₁ h
    · simp only [updateReusableIndex,if_neg hr] at h
      cases h
      exact ⟨hc,ht⟩

end Clear

end WeakReference
end FluentNet
