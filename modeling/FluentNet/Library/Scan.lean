import Mathlib.Data.List.Basic
set_option autoImplicit false

/-! Scans of a list for a delimiter, and comparison with a word that may be too short. -/

namespace Scan

variable {α : Type} [DecidableEq α]

/-- What stands before the first `c`, and what stands from it on. -/
def find (c : α) : List α → List α × List α
  | [] => ([],[])
  | a :: as => if a = c then ([],a :: as) else (a :: (find c as).1,(find c as).2)

theorem find_of_notMem {c : α} {as : List α} (h : c ∉ as) : find c as = (as,[]) := by
  induction as with
  | nil => rfl
  | cons a as ih =>
    obtain ⟨hne,has⟩ := not_or.mp (fun hc => h (List.mem_cons.mpr hc))
    simp [find,Ne.symm hne,ih has]

theorem find_append {c : α} {as : List α} (h : c ∉ as) (bs : List α) :
    find c (as ++ c :: bs) = (as,c :: bs) := by
  induction as with
  | nil => simp [find]
  | cons a as ih =>
    obtain ⟨hne,has⟩ := not_or.mp (fun hc => h (List.mem_cons.mpr hc))
    simp [find,Ne.symm hne,ih has]

theorem find_cases (c : α) (as : List α) :
    (c ∉ as ∧ find c as = (as,[])) ∨
    ∃ bs cs, c ∉ bs ∧ as = bs ++ c :: cs ∧ find c as = (bs,c :: cs) := by
  by_cases h : c ∈ as
  · obtain ⟨bs,cs,rfl,hbs⟩ := List.eq_append_cons_of_mem h
    exact .inr ⟨bs,cs,hbs,rfl,find_append hbs cs⟩
  · exact .inl ⟨h,find_of_notMem h⟩

theorem split_unique {c : α} {as as' bs bs' : List α} (h : c ∉ as) (h' : c ∉ as')
    (heq : as ++ c :: bs = as' ++ c :: bs') : as = as' ∧ bs = bs' := by
  have hfind := find_append h bs
  rw [heq,find_append h' bs'] at hfind
  obtain ⟨h1,h2⟩ := Prod.mk.inj hfind
  exact ⟨h1.symm,(List.cons.inj h2).2.symm⟩

/-- Whether a word begins with `as`, compared from the left up to the first difference;
none when the word ends before the comparison does. -/
def agree : List α → List α → Option Bool
  | [], _ => some true
  | _ :: _, [] => none
  | a :: as, b :: bs => if a = b then agree as bs else some false

theorem agree_true {as bs : List α} : agree as bs = some true ↔ as <+: bs := by
  induction as generalizing bs with
  | nil => simp [agree]
  | cons a as ih =>
    cases bs with
    | nil => simp [agree]
    | cons b bs =>
      by_cases h : a = b
      · simp [agree,h,ih]
      · simp [agree,h]

theorem agree_none {as bs : List α} : agree as bs = none ↔ bs <+: as ∧ bs ≠ as := by
  induction as generalizing bs with
  | nil => simp [agree]
  | cons a as ih =>
    cases bs with
    | nil => simp [agree]
    | cons b bs =>
      by_cases h : a = b
      · simp [agree,h,ih]
      · simp [agree,h,Ne.symm h]

omit [DecidableEq α] in
theorem take_eq_take {as bs : List α} (h : as <+: bs) {n : Nat} (hn : n ≤ as.length) :
    as.take n = bs.take n := by
  obtain ⟨cs,rfl⟩ := h
  exact (List.take_append_of_le_length hn).symm

end Scan
