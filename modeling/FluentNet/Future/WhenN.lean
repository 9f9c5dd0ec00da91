import FluentNet.Future.Cancel
import Mathlib.Data.List.Sort
set_option autoImplicit false

/-!
Waiting for `n` of a list of futures. The looper polls the control blocks until
enough of them have a value that meets the condition, and then sorts what it found.
-/

namespace FluentNet
namespace Future
open Runs

abbrev QueryPair := Nat × Nat

/-- The binder of the poll and what its lambda has captured. The back of a vector
is the end of the list. -/
structure Binder (α : Type) where
  queries : List QueryPair
  noresponse : List QueryPair
  results : List (Nat × α)
  remain : Nat
  deriving DecidableEq, Repr

section Polling
variable {α : Type} (meets : Nat → Option α)

/-- The `while` loop of the poll, on the queries from the back. -/
def drain : List QueryPair → Binder α → Binder α
  | [],s => { s with queries := [] }
  | query :: queries,s =>
      if s.remain = 0 then { s with queries := (query :: queries).reverse }
      else match meets query.2 with
        | some value =>
            drain queries { s with results := s.results ++ [(query.1,value)], remain := s.remain-1 }
        | none => drain queries { s with noresponse := s.noresponse ++ [query] }

def Binder.poll (s : Binder α) : Binder α :=
  let s := drain meets s.queries.reverse s
  { s with queries := s.noresponse, noresponse := s.queries }

def Binder.indices (s : Binder α) : List Nat :=
  (s.queries ++ s.noresponse).map Prod.fst ++ s.results.map Prod.fst

structure Drains (queries : List QueryPair) (s t : Binder α) : Prop where
  remain : t.remain+t.results.length = s.remain+s.results.length
  indices : t.indices.Perm
    (queries.map Prod.fst ++ s.noresponse.map Prod.fst ++ s.results.map Prod.fst)
  pending : ∀ q ∈ t.queries ++ t.noresponse, q ∈ queries ∨ q ∈ s.noresponse
  kept : ∀ r ∈ s.results, r ∈ t.results
  found : ∀ r ∈ t.results, r ∈ s.results ∨ ∃ q ∈ queries, q.1 = r.1 ∧ meets q.2 = some r.2
  all : t.remain ≠ 0 → t.queries = [] ∧
    ∀ q ∈ queries, ∀ value, meets q.2 = some value → (q.1,value) ∈ t.results
  done : t.remain = 0 ↔ s.remain ≤ queries.countP (fun q => (meets q.2).isSome)

section Loop
variable {meets : Nat → Option α} {query : QueryPair} {queries : List QueryPair} {s t : Binder α}

theorem Drains.stopped (h0 : s.remain = 0) :
    Drains meets queries s { s with queries := queries.reverse } := by
  refine ⟨rfl,?_,?_,fun _ h => h,fun _ h => .inl h,fun h => absurd h0 h,?_⟩
  · simp only [Binder.indices,List.map_append,List.map_reverse]
    exact ((List.reverse_perm _).append_right _).append_right _
  · intro q hq
    exact (List.mem_append.mp hq).imp_left List.mem_reverse.mp
  · simp [h0]

theorem Drains.taken {value : α} (hm : meets query.2 = some value) (h0 : s.remain ≠ 0)
    (ht : Drains meets queries
      { s with results := s.results ++ [(query.1,value)], remain := s.remain-1 } t) :
    Drains meets (query :: queries) s t := by
  obtain ⟨h1,h2,h3,h4,h5,h6,h7⟩ := ht
  refine ⟨?_,?_,?_,?_,?_,?_,?_⟩
  · rw [h1,List.length_append,List.length_singleton]
    dsimp only
    omega
  · refine h2.trans ?_
    simp only [List.map_append,List.map_cons,List.map_nil,← List.append_assoc,List.cons_append]
    exact List.perm_append_singleton _ _
  · intro q hq
    exact (h3 q hq).imp_left (List.mem_cons_of_mem _)
  · intro r hr
    exact h4 r (List.mem_append_left _ hr)
  · intro r hr
    rcases h5 r hr with hr | ⟨q,hq,he⟩
    · rcases List.mem_append.mp hr with hr | hr
      · exact .inl hr
      · obtain rfl := List.mem_singleton.mp hr
        exact .inr ⟨query,List.mem_cons_self,rfl,hm⟩
    · exact .inr ⟨q,List.mem_cons_of_mem _ hq,he⟩
  · intro hne
    refine ⟨(h6 hne).1,fun q hq v hv => ?_⟩
    rcases List.mem_cons.mp hq with rfl | hq
    · rw [hm] at hv
      cases hv
      exact h4 _ (by simp)
    · exact (h6 hne).2 q hq v hv
  · rw [h7,List.countP_cons,hm]
    dsimp only
    simp only [Option.isSome_some,if_true]
    omega

theorem Drains.passed (hm : meets query.2 = none)
    (ht : Drains meets queries { s with noresponse := s.noresponse ++ [query] } t) :
    Drains meets (query :: queries) s t := by
  obtain ⟨h1,h2,h3,h4,h5,h6,h7⟩ := ht
  refine ⟨h1,?_,?_,h4,?_,?_,?_⟩
  · refine h2.trans ?_
    simp only [List.map_append,List.map_cons,List.map_nil,← List.append_assoc,List.cons_append]
    exact (List.perm_append_singleton _ _).append_right _
  · intro q hq
    rcases h3 q hq with hq | hq
    · exact .inl (List.mem_cons_of_mem _ hq)
    · rcases List.mem_append.mp hq with hq | hq
      · exact .inr hq
      · exact .inl (List.mem_cons.mpr (.inl (List.mem_singleton.mp hq)))
  · intro r hr
    refine (h5 r hr).imp_right (fun hfound => ?_)
    obtain ⟨q,hq,he⟩ := hfound
    exact ⟨q,List.mem_cons_of_mem _ hq,he⟩
  · intro hne
    refine ⟨(h6 hne).1,fun q hq v hv => ?_⟩
    rcases List.mem_cons.mp hq with rfl | hq
    · rw [hm] at hv
      cases hv
    · exact (h6 hne).2 q hq v hv
  · rw [h7,List.countP_cons,hm]
    simp

end Loop

theorem drain_drains (queries : List QueryPair) (s : Binder α) :
    Drains meets queries s (drain meets queries s) := by
  induction queries generalizing s with
  | nil => exact ⟨rfl,by simp [Binder.indices,drain],by simp [drain],fun _ h => h,fun _ h => .inl h,
      fun _ => ⟨rfl,by simp⟩,by simp [drain]⟩
  | cons query queries ih =>
    rw [drain]
    split
    · rename_i h0
      exact .stopped h0
    · rename_i h0
      cases hm : meets query.2 with
      | some value => exact .taken hm h0 (ih _)
      | none => exact .passed hm (ih _)

end Polling

/-- `whenNIf(n, looper, first, last, cond)`; the futures are given by their blocks. -/
structure WhenN (α : Type) where
  n : Nat
  futures : List Nat
  cond : α → Bool

inductive Progress (α : Type) where
  | polling | posted
  | resolved (result : List (Nat × α))
  deriving DecidableEq, Repr

structure Waiting (α : Type) where
  blocks : Nat → Cell α
  binder : Binder α
  progress : Progress α
  /-- the inputs that a poll has come to, by now, with a value that meets the condition -/
  seen : List Nat

namespace WhenN
variable {α : Type} (w : WhenN α)

def start : Waiting α where
  blocks := fun _ => .init
  binder := ⟨(List.range w.futures.length).zip w.futures,[],[],w.n⟩
  progress := .polling
  seen := []

def meets (blocks : Nat → Cell α) (b : Nat) : Option α :=
  match (blocks b).state with
  | .ready | .posted | .done => (blocks b).value.filter w.cond
  | _ => none

def sortByIndex (results : List (Nat × α)) : List (Nat × α) :=
  results.insertionSort (fun lhs rhs => lhs.1 ≤ rhs.1)

def look (s : Waiting α) : List Nat :=
  (List.range w.futures.length).filter (fun i =>
    decide (i ∈ s.seen) || (w.futures[i]?.bind (w.meets s.blocks)).isSome)

inductive Label (α : Type) where
  /-- something is done on the block of an input, or in the looper for it -/
  | input (block : Nat) (l : Cell.Label α)
  /-- the looper comes to the request of the combined future -/
  | pass
  deriving DecidableEq, Repr

def step (s : Waiting α) : Label α → Option (Waiting α)
  | .input block l =>
      ((s.blocks block).step l).map (fun cell =>
        { s with blocks := Function.update s.blocks block cell })
  | .pass =>
      match s.progress with
      | .polling =>
          let binder := s.binder.poll (w.meets s.blocks)
          some { s with
            binder
            progress := if binder.remain = 0 then .posted else .polling
            seen := w.look s }
      | .posted => some { s with progress := .resolved (sortByIndex s.binder.results) }
      | .resolved _ => none

/-- No input is lost or taken twice, the poll ends at the first pass that has seen
enough, and the result is what was found, in order. -/
structure Serves (s : Waiting α) : Prop where
  partition : s.binder.indices.Perm (List.range w.futures.length)
  ends : ∀ t, s.progress = .polling → w.step s .pass = some t →
    (t.progress = .posted ↔ w.n ≤ t.seen.length)
  next : s.progress = .posted → ∃ result, w.step s .pass = some { s with progress := .resolved result }
  early : s.progress ≠ .polling → w.n ≤ s.seen.length
  answer : ∀ result, s.progress = .resolved result →
    result.length = w.n ∧ result.Pairwise (fun lhs rhs => lhs.1 < rhs.1) ∧
    ∀ i value, (i,value) ∈ result → ∃ b, w.futures[i]? = some b ∧
      (s.blocks b).value = some value ∧ w.cond value = true

structure Holds (s : Waiting α) : Prop where
  unset : ∀ b, (s.blocks b).state = .new → (s.blocks b).value = none
  partition : s.binder.indices.Perm (List.range w.futures.length)
  pending : ∀ q ∈ s.binder.queries ++ s.binder.noresponse, w.futures[q.1]? = some q.2
  found : ∀ i value, (i,value) ∈ s.binder.results → ∃ b, w.futures[i]? = some b ∧
    (s.blocks b).value = some value ∧ w.cond value = true
  remain : s.binder.remain+s.binder.results.length = w.n
  polling : s.progress = .polling → s.binder.noresponse = [] ∧
    ∀ i, i ∈ s.seen ↔ i ∈ s.binder.results.map Prod.fst
  ended : s.progress ≠ .polling → s.binder.remain = 0 ∧ w.n ≤ s.seen.length
  resolved : ∀ result, s.progress = .resolved result → result = sortByIndex s.binder.results

section Blocks

theorem meets_some {blocks : Nat → Cell α} {b : Nat} {value : α}
    (h : w.meets blocks b = some value) : (blocks b).value = some value ∧ w.cond value = true := by
  unfold meets at h
  split at h
  · exact Option.filter_eq_some_iff.mp h
  · exact Option.filter_eq_some_iff.mp h
  · exact Option.filter_eq_some_iff.mp h
  · cases h

end Blocks

section Steps
variable {w} {s t : Waiting α}

theorem start_holds : w.Holds w.start := by
  have hlen : (List.range w.futures.length).length = w.futures.length := List.length_range
  constructor
  · exact fun _ _ => rfl
  · simp only [Binder.indices,start,List.map_nil,List.append_nil]
    rw [List.map_fst_zip (Nat.le_of_eq hlen)]
  · intro q hq
    obtain ⟨k,hk,rfl⟩ := List.getElem_of_mem (List.append_nil _ ▸ hq)
    simp only [start] at hk ⊢
    simp only [List.length_zip,List.length_range,Nat.min_self] at hk
    simp [hk]
  · simp [start]
  · simp [start]
  · exact fun _ => ⟨rfl,by simp [start]⟩
  · exact fun h => absurd rfl h
  · intro result h
    cases h

theorem Holds.input (hs : w.Holds s) {b : Nat} {l : Cell.Label α}
    (h : w.step s (.input b l) = some t) : w.Holds t := by
  obtain ⟨c,hc,rfl⟩ := Option.map_eq_some_iff.mp h
  obtain ⟨hunset,hvalue⟩ := Cell.step_value (hs.unset b) hc
  refine ⟨fun j => ?_,hs.partition,hs.pending,?_,hs.remain,hs.polling,hs.ended,hs.resolved⟩
  · by_cases hj : j = b
    · subst hj
      simpa using hunset
    · simpa [hj] using hs.unset j
  · intro i value hi
    obtain ⟨j,hj,hv,hcond⟩ := hs.found i value hi
    refine ⟨j,hj,?_,hcond⟩
    by_cases hjb : j = b
    · subst hjb
      simpa using hvalue value hv
    · simpa [hjb] using hv

theorem Holds.look_length (hs : w.Holds s) (hp : s.progress = .polling) :
    (w.look s).length = s.binder.results.length+
      s.binder.queries.countP (fun q => (w.meets s.blocks q.2).isSome) := by
  obtain ⟨hno,hseen⟩ := hs.polling hp
  have hindices : s.binder.indices = s.binder.queries.map Prod.fst ++ s.binder.results.map Prod.fst := by
    simp [Binder.indices,hno]
  have hnodup : s.binder.indices.Nodup := hs.partition.nodup_iff.mpr List.nodup_range
  rw [hindices,List.nodup_append] at hnodup
  rw [look,← List.countP_eq_length_filter,← hs.partition.countP_eq,hindices,List.countP_append,
    Nat.add_comm,List.countP_map,List.countP_map]
  congr 1
  · refine List.countP_eq_length.mpr (fun r hr => ?_)
    have hmem : r.1 ∈ s.seen := (hseen r.1).mpr (List.mem_map_of_mem hr)
    simp [hmem]
  · refine List.countP_congr (fun q hq => ?_)
    have hnot : q.1 ∉ s.seen := fun hmem =>
      hnodup.2.2 q.1 (List.mem_map_of_mem hq) q.1 ((hseen q.1).mp hmem) rfl
    have hpend := hs.pending q (List.mem_append_left _ hq)
    simp [hnot,hpend]

theorem Holds.seen_iff (hs : w.Holds s) (hp : s.progress = .polling) {u : Binder α}
    (hd : Drains (w.meets s.blocks) s.binder.queries.reverse s.binder u) (hne : u.remain ≠ 0) (i : Nat) :
    i ∈ w.look s ↔ i ∈ u.results.map Prod.fst := by
  obtain ⟨hno,hseen⟩ := hs.polling hp
  simp only [look,List.mem_filter,List.mem_range,Bool.or_eq_true,decide_eq_true_iff]
  constructor
  · rintro ⟨hi,hi' | hi'⟩
    · obtain ⟨r,hr,hri⟩ := List.mem_map.mp ((hseen i).mp hi')
      exact hri ▸ List.mem_map_of_mem (hd.kept r hr)
    · obtain ⟨value,hv⟩ := Option.isSome_iff_exists.mp hi'
      obtain ⟨b,hb,hm⟩ := Option.bind_eq_some_iff.mp hv
      have hall : i ∈ s.binder.indices := hs.partition.mem_iff.mpr (List.mem_range.mpr hi)
      simp only [Binder.indices,hno,List.append_nil] at hall
      rcases List.mem_append.mp hall with hmem | hmem
      · obtain ⟨q,hq,hqi⟩ := List.mem_map.mp hmem
        have hpend := hs.pending q (List.mem_append_left _ hq)
        rw [hqi,hb] at hpend
        cases hpend
        exact hqi ▸ List.mem_map_of_mem ((hd.all hne).2 q (List.mem_reverse.mpr hq) value hm)
      · obtain ⟨r,hr,hri⟩ := List.mem_map.mp hmem
        exact hri ▸ List.mem_map_of_mem (hd.kept r hr)
  · intro hi
    obtain ⟨r,hr,rfl⟩ := List.mem_map.mp hi
    rcases hd.found r hr with hr | ⟨q,hq,hq1,hm⟩
    · have hall : r.1 ∈ s.binder.indices := List.mem_append_right _ (List.mem_map_of_mem hr)
      exact ⟨List.mem_range.mp (hs.partition.mem_iff.mp hall),.inl ((hseen r.1).mpr (List.mem_map_of_mem hr))⟩
    · have hpend := hs.pending q (List.mem_append_left _ (List.mem_reverse.mp hq))
      rw [hq1] at hpend
      obtain ⟨hlt,_⟩ := List.getElem?_eq_some_iff.mp hpend
      exact ⟨hlt,.inr (by simp [hpend,hm])⟩

theorem Holds.poll (hs : w.Holds s) (hp : s.progress = .polling) (h : w.step s .pass = some t) :
    w.Holds t ∧ (t.progress = .posted ↔ w.n ≤ t.seen.length) := by
  obtain ⟨hno,hseen⟩ := hs.polling hp
  obtain ⟨u,hd,hpoll⟩ : ∃ u, Drains (w.meets s.blocks) s.binder.queries.reverse s.binder u ∧
      s.binder.poll (w.meets s.blocks) = { u with queries := u.noresponse, noresponse := u.queries } :=
    ⟨_,drain_drains _ _ _,rfl⟩
  have hlook := hs.look_length hp
  have hiff := hs.seen_iff hp hd
  simp only [step,hp] at h
  rw [hpoll] at h
  cases h
  have hremain := hs.remain
  have hsum := hd.remain
  have hdone := hd.done
  rw [List.countP_reverse] at hdone
  have hposted : u.remain = 0 ↔ w.n ≤ (w.look s).length := by omega
  refine ⟨⟨hs.unset,?_,?_,?_,?_,?_,?_,?_⟩,?_⟩
  · have hswap : (u.noresponse ++ u.queries).Perm (u.queries ++ u.noresponse) := List.perm_append_comm
    have hold : (s.binder.queries.reverse.map Prod.fst ++ s.binder.noresponse.map Prod.fst ++
        s.binder.results.map Prod.fst).Perm s.binder.indices := by
      simp only [Binder.indices,List.map_append,List.map_reverse]
      exact ((List.reverse_perm _).append_right _).append_right _
    exact (((hswap.map Prod.fst).append_right _).trans (hd.indices.trans hold)).trans hs.partition
  · intro q hq
    have hq' : q ∈ u.queries ++ u.noresponse := List.perm_append_comm.mem_iff.mp hq
    refine hs.pending q (List.mem_append.mpr ?_)
    exact (hd.pending q hq').imp_left List.mem_reverse.mp
  · intro i value hi
    rcases hd.found _ hi with hr | ⟨q,hq,hq1,hm⟩
    · exact hs.found i value hr
    · have hpend := hs.pending q (List.mem_append_left _ (List.mem_reverse.mp hq))
      obtain ⟨hv,hcond⟩ := w.meets_some hm
      rw [hq1] at hpend
      exact ⟨q.2,hpend,hv,hcond⟩
  · dsimp only
    omega
  · intro hpoll
    dsimp only at hpoll
    split at hpoll
    · cases hpoll
    · rename_i hne
      exact ⟨(hd.all hne).1,hiff hne⟩
  · intro hpoll
    dsimp only at hpoll
    split at hpoll
    · rename_i h0
      exact ⟨h0,hposted.mp h0⟩
    · exact absurd rfl hpoll
  · intro result hres
    dsimp only at hres
    split at hres <;> cases hres
  · dsimp only
    rw [← hposted]
    split <;> simp_all

theorem Holds.step (hs : w.Holds s) {l : Label α} (h : w.step s l = some t) : w.Holds t := by
  cases l with
  | input b l => exact hs.input h
  | pass =>
    cases hp : s.progress with
    | polling => exact (hs.poll hp h).1
    | posted =>
      simp only [WhenN.step,hp] at h
      cases h
      have hended := hs.ended (by simp [hp])
      refine ⟨hs.unset,hs.partition,hs.pending,hs.found,hs.remain,?_,fun _ => hended,?_⟩
      · intro hpoll
        cases hpoll
      · intro result hres
        cases hres
        rfl
    | resolved result => simp [WhenN.step,hp] at h

theorem Holds.answer (hs : w.Holds s) {result : List (Nat × α)} (hp : s.progress = .resolved result) :
    result.length = w.n ∧ result.Pairwise (fun lhs rhs => lhs.1 < rhs.1) ∧
    ∀ i value, (i,value) ∈ result → ∃ b, w.futures[i]? = some b ∧
      (s.blocks b).value = some value ∧ w.cond value = true := by
  obtain ⟨hremain,_⟩ := hs.ended (by simp [hp])
  have hperm : result.Perm s.binder.results := by
    rw [hs.resolved result hp]
    exact List.perm_insertionSort _ _
  have hnodup : (result.map Prod.fst).Nodup := by
    have hall : s.binder.indices.Nodup := hs.partition.nodup_iff.mpr List.nodup_range
    exact (hperm.map Prod.fst).nodup_iff.mpr (List.nodup_append.mp hall).2.1
  refine ⟨?_,?_,fun i value hi => hs.found i value (hperm.mem_iff.mp hi)⟩
  · have hsum := hs.remain
    rw [hperm.length_eq]
    omega
  · have hle : result.Pairwise (fun lhs rhs => lhs.1 ≤ rhs.1) := by
      have htotal : Std.Total (fun lhs rhs : Nat × α => lhs.1 ≤ rhs.1) :=
        ⟨fun lhs rhs => Nat.le_total lhs.1 rhs.1⟩
      have htrans : IsTrans (Nat × α) (fun lhs rhs => lhs.1 ≤ rhs.1) :=
        ⟨fun _ _ _ => Nat.le_trans⟩
      rw [hs.resolved result hp]
      exact List.pairwise_insertionSort _ _
    have hne : result.Pairwise (fun lhs rhs => lhs.1 ≠ rhs.1) := List.pairwise_map.mp hnodup
    exact (hle.and hne).imp (fun h => Nat.lt_of_le_of_ne h.1 h.2)

end Steps

/-- For every list of futures and every order in which they resolve or are
cancelled. The combined future gets its value in the pass after the poll has ended. -/
theorem whenN_serves (w : WhenN α) (s : Waiting α) (hrun : Path w.step Any w.start s) :
    w.Serves s := by
  have hs : w.Holds s := hrun.keeps (fun _ _ _ _ hstep hi => hi.step hstep) start_holds
  refine ⟨hs.partition,fun t hp ht => (hs.poll hp ht).2,fun hp => ?_,fun hp => (hs.ended hp).2,
    fun result => hs.answer⟩
  exact ⟨_,by rw [WhenN.step,hp]⟩

/-- Two of three: the last input resolves first, and the second is cancelled. -/
def twoOfThree : WhenN Nat := ⟨2,[0,1,2],fun _ => true⟩

def arriving : List (Label Nat) :=
  [.pass,.input 2 (.setValue 30),.input 1 .cancel,.pass,.input 0 (.setValue 10),.pass,.pass]

theorem whenN_serves_twoOfThree : ∃ s : Waiting Nat, s.progress = .resolved [(0,10),(2,30)] ∧
    twoOfThree.Serves s := by
  have hrun : (run twoOfThree.step Any twoOfThree.start arriving).any
      (fun s => s.progress = .resolved [(0,10),(2,30)]) := by decide +kernel
  obtain ⟨s,hs,hcond⟩ := (Option.any_eq_true _ _).mp hrun
  exact ⟨s,of_decide_eq_true hcond,whenN_serves twoOfThree s (run_path hs)⟩

/-- After the pass that has seen enough, the combined future still has no value. -/
theorem whenN_late : ¬∀ (w : WhenN Nat) (s t : Waiting Nat), Path w.step Any w.start s →
    w.step s .pass = some t → w.n ≤ t.seen.length → ∃ result, t.progress = .resolved result := by
  intro hall
  have hrun : (run twoOfThree.step Any twoOfThree.start
      [.input 2 (.setValue 30),.input 0 (.setValue 10)]).any (fun s =>
        (twoOfThree.step s .pass).any (fun t => 2 ≤ t.seen.length ∧ t.progress = .posted)) := by
    decide +kernel
  obtain ⟨s,hs,hpass⟩ := (Option.any_eq_true _ _).mp hrun
  obtain ⟨t,ht,hcond⟩ := (Option.any_eq_true _ _).mp hpass
  obtain ⟨hseen,hposted⟩ := of_decide_eq_true hcond
  obtain ⟨result,hres⟩ := hall twoOfThree s t (run_path hs) ht hseen
  rw [hposted] at hres
  cases hres

end WhenN
end Future
end FluentNet
