import Mathlib.Data.List.Pairwise
set_option autoImplicit false

/-!
The tokens of a list: its maximal runs of elements that do not separate, each as
the range from its first position up to the one behind its last.
-/

namespace Tokens

variable {α : Type} {sep : α → Bool}

/-- A maximal run of elements that do not separate. -/
structure IsRun (sep : α → Bool) (l : List α) (lo hi : Nat) : Prop where
  nonempty : lo < hi
  bound : hi ≤ l.length
  inside : ∀ j a, lo ≤ j → j < hi → l[j]? = some a → sep a = false
  left : ∀ j a, j+1 = lo → l[j]? = some a → sep a = true
  right : ∀ a, l[hi]? = some a → sep a = true

/-- The scan of the rest of a list from position `i`. If a token is being read, it began
at the second argument. -/
def scan (sep : α → Bool) : Nat → Option Nat → List α → List (Nat × Nat)
  | _, none, [] => []
  | i, some lo, [] => [(lo,i)]
  | i, none, a :: l => if sep a then scan sep (i+1) none l else scan sep (i+1) (some i) l
  | i, some lo, a :: l =>
      if sep a then (lo,i) :: scan sep (i+1) none l else scan sep (i+1) (some lo) l

def tokens (sep : α → Bool) (l : List α) : List (Nat × Nat) := scan sep 0 none l

/-- The token being read at position `i`: none right behind a separator, else one that is
a maximal run as far as the list was read. -/
def Reading (sep : α → Bool) (l : List α) (i : Nat) : Option Nat → Prop
  | none => ∀ j a, j+1 = i → l[j]? = some a → sep a = true
  | some lo => lo < i ∧ (∀ j a, lo ≤ j → j < i → l[j]? = some a → sep a = false) ∧
      ∀ j a, j+1 = lo → l[j]? = some a → sep a = true

theorem sep_eq {l : List α} {j : Nat} {a b : α} (ha : l[j]? = some a) (hb : l[j]? = some b) :
    sep a = sep b :=
  congrArg sep (Option.some.inj (ha.symm.trans hb))

theorem IsRun.unique_end {l : List α} {lo hi hi' : Nat} (h : IsRun sep l lo hi)
    (h' : IsRun sep l lo hi') : hi = hi' := by
  have hle : ∀ {h1 h2 : Nat}, IsRun sep l lo h1 → IsRun sep l lo h2 → h2 ≤ h1 := by
    intro h1 h2 r1 r2
    by_contra hlt
    have hb := r2.bound
    obtain ⟨a,ha⟩ : ∃ a, l[h1]? = some a := ⟨_,List.getElem?_eq_getElem (by omega)⟩
    have hin := r2.inside h1 a (Nat.le_of_lt r1.nonempty) (by omega) ha
    rw [r1.right a ha] at hin
    cases hin
  exact Nat.le_antisymm (hle h' h) (hle h h')

theorem IsRun.ne_right {l : List α} {lo hi i : Nat} (h : IsRun sep l lo hi)
    (hright : ∀ a, l[i]? = some a → sep a = true) : lo ≠ i := by
  rintro rfl
  have hlt := Nat.lt_of_lt_of_le h.nonempty h.bound
  have ha := List.getElem?_eq_getElem hlt
  have hin := h.inside lo _ (Nat.le_refl lo) h.nonempty ha
  rw [hright _ ha] at hin
  cases hin

theorem step_of_drop {l rest : List α} {a : α} {i : Nat} (h : l.drop i = a :: rest) :
    l[i]? = some a ∧ l.drop (i+1) = rest := by
  constructor
  · rw [← List.head?_drop,h,List.head?_cons]
  · rw [← List.tail_drop,h,List.tail_cons]

theorem Reading.separator {l : List α} {a : α} {i : Nat} (ha : l[i]? = some a)
    (hs : sep a = true) : Reading sep l (i+1) none := by
  intro j b hj hb
  obtain rfl : j = i := by omega
  exact (sep_eq hb ha).trans hs

theorem Reading.begin {l : List α} {a : α} {i : Nat} (h : Reading sep l i none)
    (ha : l[i]? = some a) (hs : sep a = false) : Reading sep l (i+1) (some i) := by
  refine ⟨Nat.lt_succ_self _,fun j b h1 h2 hb => ?_,h⟩
  obtain rfl : j = i := by omega
  exact (sep_eq hb ha).trans hs

theorem Reading.continue {l : List α} {a : α} {i lo : Nat} (h : Reading sep l i (some lo))
    (ha : l[i]? = some a) (hs : sep a = false) : Reading sep l (i+1) (some lo) := by
  refine ⟨Nat.lt_succ_of_lt h.1,fun j b h1 h2 hb => ?_,h.2.2⟩
  by_cases hj : j = i
  · subst hj
    exact (sep_eq hb ha).trans hs
  · exact h.2.1 j b h1 (by omega) hb

theorem Reading.closed {l : List α} {i lo : Nat} (h : Reading sep l i (some lo))
    (hi : i ≤ l.length) (hright : ∀ a, l[i]? = some a → sep a = true) : IsRun sep l lo i where
  nonempty := h.1
  bound := hi
  inside := h.2.1
  left := h.2.2
  right := hright

theorem Reading.no_run_inside {l : List α} {i lo lo' hi' : Nat} (h : Reading sep l i (some lo))
    (hi : i ≤ l.length) (hr : IsRun sep l lo' hi') : ¬(lo < lo' ∧ lo' ≤ i) := by
  rintro ⟨h1,h2⟩
  obtain ⟨a,ha⟩ : ∃ a, l[lo'-1]? = some a := ⟨_,List.getElem?_eq_getElem (by omega)⟩
  have hin := h.2.1 (lo'-1) a (by omega) (by omega) ha
  rw [hr.left (lo'-1) a (by omega) ha] at hin
  cases hin

theorem runs_past {l : List α} {i : Nat} (hright : ∀ a, l[i]? = some a → sep a = true)
    (lo hi : Nat) : IsRun sep l lo hi ∧ i ≤ lo ↔ IsRun sep l lo hi ∧ i+1 ≤ lo := by
  constructor
  · rintro ⟨hr,hle⟩
    exact ⟨hr,Nat.lt_of_le_of_ne hle (hr.ne_right hright).symm⟩
  · rintro ⟨hr,hle⟩
    exact ⟨hr,Nat.le_of_succ_le hle⟩

/-- The runs from the beginning of a token on that is closed at `i`: the token, and those
behind `i`. -/
theorem Reading.runs_from {l : List α} {i lo0 : Nat} (h : Reading sep l i (some lo0))
    (hlen : i ≤ l.length) (hright : ∀ a, l[i]? = some a → sep a = true) (lo hi : Nat) :
    IsRun sep l lo hi ∧ lo0 ≤ lo ↔
      (lo = lo0 ∧ hi = i) ∨ IsRun sep l lo hi ∧ i+1 ≤ lo := by
  have hlt := h.1
  constructor
  · rintro ⟨hr,hle⟩
    have hno := h.no_run_inside hlen hr
    by_cases heq : lo = lo0
    · subst heq
      exact .inl ⟨rfl,hr.unique_end (h.closed hlen hright)⟩
    · exact .inr ⟨hr,by omega⟩
  · rintro (⟨rfl,rfl⟩ | ⟨hr,hle⟩)
    · exact ⟨h.closed hlen hright,Nat.le_refl _⟩
    · exact ⟨hr,by omega⟩

theorem mem_scan {l rest : List α} {i : Nat} {o : Option Nat} (hrest : l.drop i = rest)
    (hlen : i ≤ l.length) (ho : Reading sep l i o) (lo hi : Nat) :
    (lo,hi) ∈ scan sep i o rest ↔ IsRun sep l lo hi ∧ o.getD i ≤ lo := by
  induction rest generalizing i o with
  | nil =>
    have hend : l.length ≤ i := List.drop_eq_nil_iff.mp hrest
    have hright : ∀ a, l[i]? = some a → sep a = true := by
      intro a ha
      rw [List.getElem?_eq_none hend] at ha
      cases ha
    have hnone : ¬(IsRun sep l lo hi ∧ i ≤ lo) := by
      rintro ⟨hr,hle⟩
      have h1 := hr.nonempty
      have h2 := hr.bound
      omega
    cases o with
    | none => exact ⟨fun h => (by cases h),fun h => absurd h hnone⟩
    | some lo0 =>
      rw [scan,List.mem_singleton,Prod.mk.injEq,Option.getD_some,ho.runs_from hlen hright,
        ← runs_past hright,or_iff_left hnone]
  | cons a rest ih =>
    obtain ⟨ha,hnext⟩ := step_of_drop hrest
    have hlt : i < l.length := (List.getElem?_eq_some_iff.mp ha).1
    cases hs : sep a with
    | true =>
      have hright : ∀ b, l[i]? = some b → sep b = true := fun b hb => (sep_eq hb ha).trans hs
      have hbehind := ih hnext hlt (.separator ha hs)
      rw [Option.getD_none] at hbehind
      cases o with
      | none => rw [scan,if_pos hs,hbehind,Option.getD_none,runs_past hright]
      | some lo0 =>
        rw [scan,if_pos hs,List.mem_cons,Prod.mk.injEq,hbehind,Option.getD_some,
          ho.runs_from hlen hright]
    | false =>
      have hneg : ¬sep a = true := fun h => Bool.false_ne_true (hs.symm.trans h)
      cases o with
      | none =>
        rw [scan,if_neg hneg,ih hnext hlt (ho.begin ha hs),Option.getD_some,Option.getD_none]
      | some lo0 =>
        rw [scan,if_neg hneg,ih hnext hlt (ho.continue ha hs),Option.getD_some,Option.getD_some]

theorem mem_tokens (l : List α) (lo hi : Nat) :
    (lo,hi) ∈ tokens sep l ↔ IsRun sep l lo hi := by
  have hstart : Reading sep l 0 none := fun j _ hj => by omega
  rw [tokens,mem_scan List.drop_zero (Nat.zero_le _) hstart,Option.getD_none]
  exact and_iff_left (Nat.zero_le _)

theorem lt_of_mem_tokens {l : List α} {r : Nat × Nat} (hr : r ∈ tokens sep l) : r.1 < r.2 :=
  ((mem_tokens l r.1 r.2).mp hr).nonempty

def Begun (i : Nat) (o : Option Nat) : Prop := ∀ lo ∈ o, lo ≤ i

theorem begun_none (i : Nat) : Begun i none := fun _ h => by cases h

theorem begun_some {i lo : Nat} (h : lo ≤ i) : Begun i (some lo) := by
  intro lo' heq
  cases heq
  exact h

theorem Begun.next {i : Nat} {o : Option Nat} (h : Begun i o) : Begun (i+1) o :=
  fun lo hlo => Nat.le_succ_of_le (h lo hlo)

theorem le_of_mem_scan {rest : List α} {i : Nat} {o : Option Nat} (ho : Begun i o)
    {r : Nat × Nat} (hr : r ∈ scan sep i o rest) : o.getD i ≤ r.1 := by
  induction rest generalizing i o with
  | nil =>
    cases o with
    | none => cases hr
    | some lo =>
      rw [scan,List.mem_singleton] at hr
      subst hr
      exact Nat.le_refl _
  | cons a rest ih =>
    cases o with
    | none =>
      rw [scan] at hr
      split at hr
      · have hle : i+1 ≤ r.1 := ih (begun_none _) hr
        exact Nat.le_of_succ_le hle
      · have hle : i ≤ r.1 := ih (begun_some (Nat.le_succ i)) hr
        exact hle
    | some lo =>
      rw [scan] at hr
      split at hr
      · rcases List.mem_cons.mp hr with rfl | hr
        · exact Nat.le_refl _
        · have hle : i+1 ≤ r.1 := ih (begun_none _) hr
          exact Nat.le_trans (ho lo rfl) (Nat.le_of_succ_le hle)
      · have hle : lo ≤ r.1 := ih ho.next hr
        exact hle

theorem scan_sorted {rest : List α} {i : Nat} {o : Option Nat} (ho : Begun i o) :
    (scan sep i o rest).Pairwise (fun r r' => r.2 < r'.1) := by
  induction rest generalizing i o with
  | nil => cases o <;> simp [scan]
  | cons a rest ih =>
    cases o with
    | none =>
      rw [scan]
      split
      · exact ih (begun_none _)
      · exact ih (begun_some (Nat.le_succ i))
    | some lo =>
      rw [scan]
      split
      · rw [List.pairwise_cons]
        exact ⟨fun r hr => le_of_mem_scan (begun_none _) hr,ih (begun_none _)⟩
      · exact ih ho.next

theorem tokens_sorted (l : List α) : (tokens sep l).Pairwise (fun r r' => r.2 < r'.1) :=
  scan_sorted (begun_none 0)

theorem scan_covers {l rest : List α} {i j : Nat} {o : Option Nat} {a : α}
    (hrest : l.drop i = rest) (ho : Begun i o) (hj : o.getD i ≤ j) (ha : l[j]? = some a)
    (hs : sep a = false) : ∃ r ∈ scan sep i o rest, r.1 ≤ j ∧ j < r.2 := by
  induction rest generalizing i o with
  | nil =>
    have hlen : l.length ≤ i := List.drop_eq_nil_iff.mp hrest
    have hlt : j < l.length := (List.getElem?_eq_some_iff.mp ha).1
    cases o with
    | none =>
      rw [Option.getD_none] at hj
      omega
    | some lo => exact ⟨(lo,i),List.mem_singleton_self _,hj,by omega⟩
  | cons b rest ih =>
    obtain ⟨hb,hnext⟩ := step_of_drop hrest
    have hne : sep b = true → j ≠ i := by
      rintro hsb rfl
      rw [ha] at hb
      cases hb
      rw [hs] at hsb
      cases hsb
    have hpast : sep b = true → i ≤ j → ∃ r ∈ scan sep (i+1) none rest, r.1 ≤ j ∧ j < r.2 :=
      fun hsb hij => ih hnext (begun_none _) (Nat.lt_of_le_of_ne hij (hne hsb).symm)
    cases o with
    | none =>
      rw [scan]
      split
      · rename_i hsb
        exact hpast hsb hj
      · exact ih hnext (begun_some (Nat.le_succ i)) hj
    | some lo =>
      rw [scan]
      split
      · rename_i hsb
        by_cases hlt : j < i
        · exact ⟨(lo,i),List.mem_cons_self,hj,hlt⟩
        · obtain ⟨r,hr,hin⟩ := hpast hsb (Nat.le_of_not_lt hlt)
          exact ⟨r,List.mem_cons_of_mem _ hr,hin⟩
      · exact ih hnext ho.next hj

def Apart (r r' : Nat × Nat) : Prop := r.2 < r'.1 ∨ r'.2 < r.1

instance : Std.Symm Apart := ⟨fun _ _ h => h.symm⟩

theorem tokens_apart (l : List α) {r r' : Nat × Nat} (hr : r ∈ tokens sep l)
    (hr' : r' ∈ tokens sep l) (hne : r ≠ r') : Apart r r' :=
  ((tokens_sorted l).imp (S := Apart) Or.inl).forall hr hr' hne

theorem tokens_cover {l : List α} {j : Nat} {a : α} (ha : l[j]? = some a)
    (hs : sep a = false) : ∃! r, r ∈ tokens sep l ∧ r.1 ≤ j ∧ j < r.2 := by
  obtain ⟨r,hr,hin⟩ := scan_covers List.drop_zero (begun_none 0) (Nat.zero_le j) ha hs
  refine ⟨r,⟨hr,hin⟩,?_⟩
  rintro r' ⟨hr',hin'⟩
  by_contra hne
  have hapart : r'.2 < r.1 ∨ r.2 < r'.1 := tokens_apart l hr' hr hne
  omega

theorem scan_word {w : List α} (hw : ∀ a ∈ w, sep a = false) (i lo : Nat) (rest : List α) :
    scan sep i (some lo) (w ++ rest) = scan sep (i+w.length) (some lo) rest := by
  induction w generalizing i with
  | nil => rfl
  | cons a w ih =>
    rw [List.cons_append,scan,hw a List.mem_cons_self,
      ih (fun b hb => hw b (List.mem_cons_of_mem _ hb)),List.length_cons]
    simp only [Bool.false_eq_true,if_false]
    congr 1
    omega

theorem scan_first {w : List α} (hw : ∀ a ∈ w, sep a = false) (hne : w ≠ []) (i : Nat)
    (rest : List α) : scan sep i none (w ++ rest) = scan sep (i+w.length) (some i) rest := by
  cases w with
  | nil => exact absurd rfl hne
  | cons a w =>
    rw [List.cons_append,scan,hw a List.mem_cons_self,
      scan_word (fun b hb => hw b (List.mem_cons_of_mem _ hb)),List.length_cons]
    simp only [Bool.false_eq_true,if_false]
    congr 1
    omega

theorem scan_separators {w : List α} (hw : ∀ a ∈ w, sep a = true) (i : Nat) (rest : List α) :
    scan sep i none (w ++ rest) = scan sep (i+w.length) none rest := by
  induction w generalizing i with
  | nil => rfl
  | cons a w ih =>
    rw [List.cons_append,scan,hw a List.mem_cons_self,if_pos rfl,
      ih (fun b hb => hw b (List.mem_cons_of_mem _ hb)),List.length_cons]
    congr 1
    omega

theorem scan_close {rest : List α} (hrest : ∀ a ∈ rest.head?, sep a = true) (i lo : Nat) :
    scan sep i (some lo) rest = (lo,i) :: scan sep i none rest := by
  cases rest with
  | nil => rfl
  | cons a rest =>
    have ha : sep a = true := hrest a rfl
    simp only [scan,ha,if_true]

theorem scan_token {s w rest : List α} (hs : ∀ a ∈ s, sep a = true)
    (hw : ∀ a ∈ w, sep a = false) (hrest : ∀ a ∈ rest.head?, sep a = true) (i : Nat) :
    scan sep i none (s ++ (w ++ rest)) =
      (if i+s.length < i+s.length+w.length then [(i+s.length,i+s.length+w.length)] else []) ++
        scan sep (i+s.length+w.length) none rest := by
  rw [scan_separators hs]
  cases w with
  | nil => simp
  | cons a w =>
    rw [scan_first hw (List.cons_ne_nil a w),scan_close hrest,if_pos (by simp),
      List.singleton_append]

section Slices

def slice (l : List α) (r : Nat × Nat) : List α := (l.drop r.1).take (r.2-r.1)

theorem slice_append (pre w rest : List α) :
    slice (pre ++ w ++ rest) (pre.length,pre.length+w.length) = w := by
  rw [slice,List.append_assoc,List.drop_left,Nat.add_sub_cancel_left,List.take_left]

def words (sep : α → Bool) (l : List α) : List (List α) := (tokens sep l).map (slice l)

theorem words_intercalate {c : α} (hc : sep c = true) (ws : List (List α))
    (hws : ∀ w ∈ ws, w ≠ [] ∧ ∀ a ∈ w, sep a = false) : words sep ([c].intercalate ws) = ws := by
  suffices hscan : ∀ pre : List α, (scan sep pre.length none ([c].intercalate ws)).map
      (slice (pre ++ [c].intercalate ws)) = ws from hscan []
  induction ws with
  | nil => exact fun _ => rfl
  | cons w ws ih =>
    intro pre
    obtain ⟨hne,hw⟩ := hws w List.mem_cons_self
    have hfirst := slice_append pre w
    cases ws with
    | nil =>
      have hend := hfirst []
      rw [List.append_nil] at hend
      have hread := scan_first hw hne pre.length []
      rw [List.append_nil] at hread
      rw [List.intercalate_singleton,hread,scan,List.map_singleton,hend]
    | cons w' ws =>
      have hrest := ih (fun v hv => hws v (List.mem_cons_of_mem _ hv)) (pre ++ w ++ [c])
      rw [List.length_append,List.length_append,List.length_singleton,List.append_assoc] at hrest
      rw [List.intercalate_cons_cons,List.append_assoc,scan_first hw hne,List.singleton_append,
        scan,hc,if_pos rfl,List.map_cons,← List.append_assoc,hfirst]
      congr 1

end Slices

end Tokens
