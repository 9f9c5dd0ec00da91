import Mathlib.Data.Nat.Notation
set_option autoImplicit false

/-!
The incremental collector. `[0,left)` has been seen in use, the window
`[left,right]` has been seen reusable, and `[right+1,reusableIndex)` is still to be
looked at. The collected type gives `isReusable` and the slots.
-/

namespace FluentNet

structure WeakReference where
  reusableIndex : Int
  left : Int
  right : Int
  deriving DecidableEq, Repr

namespace WeakReference

def init : WeakReference := ⟨0,0,-1⟩

def resetWindow (w : WeakReference) : WeakReference := { w with left := 0, right := -1 }

section Code
variable {α : Type} (isReusable : α → Bool)

/-- `get(index)`; nothing outside of the slots. -/
def get (slots : List α) (index : Int) : Option α :=
  if 0 ≤ index then slots[index.toNat]? else none

def swap (slots : List α) (i j : Int) : Option (List α) := do
  let a ← get slots i
  let b ← get slots j
  some ((slots.set i.toNat b).set j.toNat a)

def doUpdate (w : WeakReference) (slots : List α) : Option (WeakReference × List α) :=
  -- closed window
  if w.left > w.right then do
    let slot ← get slots w.left
    if isReusable slot then some ({ w with right := w.right+1 },slots)
    else
      let w' := { w with left := w.left+1, right := w.right+1 }
      some (if w'.left = w'.reusableIndex then w'.resetWindow else w',slots)
  -- merge the window
  else if w.right+1 = w.reusableIndex then
    some ({ w with reusableIndex := w.left }.resetWindow,slots)
  else do
    let slot ← get slots (w.right+1)
    if isReusable slot then some ({ w with right := w.right+1 },slots)
    else do
      let slots' ← swap slots (w.right+1) w.left
      some ({ w with left := w.left+1, right := w.right+1 },slots')

/-- `updateReusableIndex` with `step` turns of its loop left. -/
def updateReusableIndex : Nat → WeakReference → List α → Option (WeakReference × List α)
  | 0, w, slots => some (w,slots)
  | n+1, w, slots =>
      if w.reusableIndex ≠ 0 then do
        let (w',slots') ← doUpdate isReusable w slots
        updateReusableIndex n w' slots'
      else some (w,slots)

end Code

/-- `0 <= left <= right+1 <= reusableIndex <= size`, and a closed window is not at
the end. -/
structure Wf (w : WeakReference) (size : Nat) : Prop where
  left_nonneg : 0 ≤ w.left
  left_le : w.left ≤ w.right+1
  right_le : w.right+1 ≤ w.reusableIndex
  index_le : w.reusableIndex ≤ size
  closed : w.left = w.right+1 → w.left < w.reusableIndex ∨ w.left = 0

theorem init_wf (size : Nat) : init.Wf size := by
  constructor <;> simp [init]

def passed (w : WeakReference) : WeakReference :=
  if w.left+1 = w.reusableIndex then w.resetWindow
  else { w with left := w.left+1, right := w.right+1 }

section Update
variable {α : Type} (isReusable : α → Bool) {w : WeakReference} {slots : List α}

theorem get_of_lt (slots : List α) {index : Int} (h0 : 0 ≤ index) (h : index.toNat < slots.length) :
    get slots index = some slots[index.toNat] := by
  simp [get,h0,h]

theorem swap_of_lt (slots : List α) {i j : Int} (hi0 : 0 ≤ i) (hi : i.toNat < slots.length) (hj0 : 0 ≤ j)
    (hj : j.toNat < slots.length) :
    swap slots i j = some ((slots.set i.toNat slots[j.toNat]).set j.toNat slots[i.toNat]) := by
  simp [swap,get_of_lt slots hi0 hi,get_of_lt slots hj0 hj]

/-- One micro-step: a merge at the end of the scan, else a look at the next slot. -/
theorem doUpdate_cases (hw : w.Wf slots.length) (hr : w.reusableIndex ≠ 0) :
    (w.left ≤ w.right ∧ w.right+1 = w.reusableIndex ∧
      doUpdate isReusable w slots = some (⟨w.left,0,-1⟩,slots)) ∨
    (w.right+1 < w.reusableIndex ∧ ∃ (hp : (w.right+1).toNat < slots.length)
      (hl : w.left.toNat < slots.length),
      (isReusable slots[(w.right+1).toNat] = true ∧
        doUpdate isReusable w slots = some ({ w with right := w.right+1 },slots)) ∨
      (isReusable slots[(w.right+1).toNat] = false ∧
        doUpdate isReusable w slots = some (w.passed,
          (slots.set (w.right+1).toNat slots[w.left.toNat]).set
            w.left.toNat slots[(w.right+1).toNat]))) := by
  obtain ⟨h1,h2,h3,h4,h5⟩ := hw
  by_cases hopen : w.left > w.right
  · have heq : w.left = w.right+1 := by omega
    have hlt : w.left < w.reusableIndex := by
      rcases h5 heq with h | h <;> omega
    have hp : (w.right+1).toNat < slots.length := by omega
    have hl : w.left.toNat < slots.length := by omega
    have hi : w.left.toNat = (w.right+1).toNat := by rw [heq]
    have hget : get slots w.left = some slots[(w.right+1).toNat] := by
      rw [heq]
      exact get_of_lt slots (by omega) hp
    have hset : (slots.set (w.right+1).toNat slots[w.left.toNat]).set w.left.toNat
        slots[(w.right+1).toNat] = slots := by simp [hi]
    refine .inr ⟨by omega,hp,hl,?_⟩
    simp only [doUpdate,if_pos hopen,hget,Option.bind_eq_bind,Option.bind_some,hset]
    cases hre : isReusable slots[(w.right+1).toNat] with
    | true => simp
    | false => exact .inr ⟨rfl,by simp [passed,resetWindow]⟩
  · by_cases hend : w.right+1 = w.reusableIndex
    · refine .inl ⟨by omega,hend,?_⟩
      simp [doUpdate,hopen,hend,resetWindow]
    · have hp : (w.right+1).toNat < slots.length := by omega
      have hl : w.left.toNat < slots.length := by omega
      refine .inr ⟨by omega,hp,hl,?_⟩
      have hget := get_of_lt slots (by omega) hp
      have hswap := swap_of_lt slots (by omega) hp h1 hl
      simp only [doUpdate,if_neg hopen,if_neg hend,hget,hswap,Option.bind_eq_bind,Option.bind_some]
      cases hre : isReusable slots[(w.right+1).toNat] with
      | true => simp
      | false =>
        refine .inr ⟨rfl,?_⟩
        have hne : w.left+1 ≠ w.reusableIndex := by omega
        simp [passed,hne]

theorem passed_wf {size : Nat} (hw : w.Wf size) (hlt : w.right+1 < w.reusableIndex) :
    w.passed.Wf size := by
  obtain ⟨h1,h2,h3,h4,h5⟩ := hw
  unfold passed
  split
  · constructor <;> simp only [resetWindow] <;> omega
  · constructor <;> dsimp only <;> omega

theorem doUpdate_wf (hw : w.Wf slots.length) (hr : w.reusableIndex ≠ 0) :
    ∃ w' slots', doUpdate isReusable w slots = some (w',slots') ∧ w'.Wf slots'.length ∧
      slots'.Perm slots := by
  rcases doUpdate_cases isReusable hw hr with
    ⟨hle,_,he⟩ | ⟨hlt,hp,hl,⟨_,he⟩ | ⟨_,he⟩⟩
  · refine ⟨_,_,he,?_,.refl _⟩
    obtain ⟨h1,h2,h3,h4,h5⟩ := hw
    constructor <;> dsimp only <;> omega
  · refine ⟨_,_,he,?_,.refl _⟩
    obtain ⟨h1,h2,h3,h4,h5⟩ := hw
    constructor <;> dsimp only <;> omega
  · refine ⟨_,_,he,?_,List.set_set_perm hp hl⟩
    simpa using passed_wf hw hlt

theorem updateReusableIndex_wf (n : Nat) (hw : w.Wf slots.length) :
    ∃ w' slots', updateReusableIndex isReusable n w slots = some (w',slots') ∧
      w'.Wf slots'.length ∧ slots'.Perm slots := by
  induction n generalizing w slots with
  | zero => exact ⟨w,slots,rfl,hw,.refl _⟩
  | succ n ih =>
    by_cases hr : w.reusableIndex ≠ 0
    · obtain ⟨w₁,slots₁,h₁,hw₁,hp₁⟩ := doUpdate_wf isReusable hw hr
      obtain ⟨w₂,slots₂,h₂,hw₂,hp₂⟩ := ih hw₁
      refine ⟨w₂,slots₂,?_,hw₂,hp₂.trans hp₁⟩
      simp [updateReusableIndex,hr,h₁,h₂]
    · exact ⟨w,slots,by simp [updateReusableIndex,hr],hw,.refl _⟩

end Update

end WeakReference
end FluentNet
