import FluentNet.Logger.Shared
set_option autoImplicit false

/-!
A thread that finds the buffer full waits for the writer. How long, in steps of the
writer's own.
-/

namespace FluentNet
namespace Logger
namespace Shared
open Cells Runs

/-- How many steps the writer has before it sets `sflag`, at most. -/
def rank (s : Shared) : Nat :=
  if s.sflag then 0 else match s.writer with
  | .swap _ .finish => 1
  | .swap _ .clear => 2
  | .swap _ .save => 3
  | .swap _ .widx => 4
  | .swap _ .ridx => 5
  | .check _ => 6
  | .wait | .lock => 7
  | .top => 8
  | .continue => 9
  | .tryLock => 10
  | .append w => 9+(s.cur-w)
  | .updatable => 10+s.cur
  | .unlock => 11+s.cur
  | .unlockRead => 12+s.cur
  | .swap _ .idx => 13+s.cur
  | .swap _ .reset => 14+s.cur
  | .swap _ .cur => 15+s.wcur
  | .exited => 0

def Label.isWriter : Label → Bool
  | .writer _ _ => true
  | _ => false

/-- A swap has been asked for, `write` writes something, and nobody stops the writer. -/
def Waits (s : Shared) (l : Label) : Prop :=
  s.sflag = false ∧ s.Allowed l ∧ match l with
    | .writer _ wrote => 0 < wrote.getD 0
    | .kill => False
    | _ => True

instance (s : Shared) : (l : Label) → Decidable (s.Waits l)
  | .apply i text => inferInstanceAs (Decidable (s.sflag = false ∧ s.Allowed (.apply i text) ∧ True))
  | .front i => inferInstanceAs (Decidable (s.sflag = false ∧ s.Allowed (.front i) ∧ True))
  | .writer yes wrote =>
      inferInstanceAs (Decidable (s.sflag = false ∧ s.Allowed (.writer yes wrote) ∧ 0 < wrote.getD 0))
  | .kill => inferInstanceAs (Decidable (s.sflag = false ∧ s.Allowed .kill ∧ False))

def SwapHeld (s : Shared) : Prop :=
  ∀ o, s.smtx = some o → match o with
    | .writer => s.writer.withSwap
    | .front i => (s.front i).withSwap

section Rank
variable {s t : Shared} {fileMaxSize : Nat}

theorem stepFront_writer {i : Nat} (h : s.stepFront i = some t) :
    t.writer = s.writer ∧ t.cur = s.cur ∧ t.wcur = s.wcur ∧ t.kflag = s.kflag := by
  unfold stepFront at h
  cases hf : s.front i with
  | idle =>
    rw [hf] at h
    cases h
  | lock text =>
    rw [hf] at h
    dsimp only at h
    split at h
    · cases h
      exact ⟨rfl,rfl,rfl,rfl⟩
    · cases h
  | spin text =>
    rw [hf] at h
    cases h
    split <;> exact ⟨rfl,rfl,rfl,rfl⟩
  | put text r b n =>
    rw [hf] at h
    dsimp only at h
    split at h <;> cases h <;> exact ⟨rfl,rfl,rfl,rfl⟩
  | _ =>
    rw [hf] at h
    cases h
    exact ⟨rfl,rfl,rfl,rfl⟩

theorem apply_writer {i : Nat} {text : List UInt8} (h : s.apply i text = some t) :
    t.writer = s.writer ∧ t.cur = s.cur ∧ t.wcur = s.wcur ∧ t.kflag = s.kflag := by
  unfold Shared.apply at h
  split at h
  · cases h
    exact ⟨rfl,rfl,rfl,rfl⟩
  · cases h

theorem rank_congr (hf : s.sflag = false) (hw : t.writer = s.writer) (hcur : t.cur = s.cur)
    (hwcur : t.wcur = s.wcur) : t.rank ≤ s.rank := by
  cases ht : t.sflag <;> simp [rank,hf,ht,hw,hcur,hwcur]

theorem Inv.stepWriter_rank (h : s.Inv fileMaxSize) (hf : s.sflag = false) (hk : s.kflag = false) {yes : Bool}
    {n : Nat} (hn : 0 < n) (hs : s.stepWriter fileMaxSize yes (some n) = some t) :
    t.rank < s.rank ∧ t.kflag = false := by
  unfold Shared.stepWriter at hs
  cases hw : s.writer with
  | top =>
    rw [hw] at hs
    cases hs
    simp [rank,hf,hw,hk]
  | lock =>
    rw [hw] at hs
    dsimp only at hs
    split at hs
    · cases hs
      simp [rank,hf,hw,hk]
    · cases hs
  | check timeout =>
    rw [hw] at hs
    simp only [hf,if_pos] at hs
    cases hs
    simp [rank,hf,hw,hk]
  | wait =>
    rw [hw] at hs
    dsimp only at hs
    split at hs
    · cases hs
      simp [rank,hf,hw,hk]
    · cases hs
  | tryLock =>
    rw [hw] at hs
    dsimp only at hs
    split at hs
    · -- the one that waits has the lock
      split at hs
      · rename_i hfree
        obtain ⟨i,hi⟩ := h.locks.asked hf
        have hidle : s.front i ≠ .idle := by
          intro hidle
          rw [hidle] at hi
          cases hi
        have hown := h.locks.read i hidle
        rw [hfree] at hown
        cases hown
      · cases hs
    · cases hs
      simp [rank,hf,hw,hk]
  | swap own next =>
    rw [hw] at hs
    cases hs
    cases next with
    | idx => cases own <;> simp [Shared.stepSwap,rank,hf,hw,hk]
    | finish => simp [Shared.stepSwap,rank,hf,hw,hk]
    | _ => simp [Shared.stepSwap,rank,hf,hw,hk]
  | unlockRead | unlock | «continue» =>
    rw [hw] at hs
    cases hs
    simp [rank,hf,hw,hk]
  | updatable =>
    rw [hw] at hs
    cases hs
    cases s.updatable fileMaxSize yes with
    | true => simp [rank,Shared.update,hf,hw,hk]
    | false => simp [rank,hf,hw,hk]
  | append w =>
    rw [hw] at hs
    dsimp only at hs
    have hle := h.sides.written w hw
    unfold Shared.stepAppend at hs
    split at hs
    · cases hs
      refine ⟨?_,hk⟩
      simp only [rank,hf,hw]
      change 8 < 9+(s.cur-w)
      omega
    · split at hs
      · cases hs
      dsimp only at hs
      split at hs
      · rename_i hne hlt _
        cases hs
        refine ⟨?_,hk⟩
        simp only [rank,hf,hw]
        change 9+(s.cur-(w+n)) < 9+(s.cur-w)
        omega
      · cases hs
  | exited =>
    rw [hw] at hs
    cases hs

theorem SwapHeld.goto (h : s.SwapHeld) {i : Nat} (pc : Front) (hpc : (s.front i).withSwap → pc.withSwap) :
    (s.goto i pc).SwapHeld := by
  intro o ho
  have hold := h o ho
  cases o with
  | writer => exact hold
  | front j =>
    by_cases hji : j = i
    · subst hji
      dsimp only
      rw [goto_self]
      exact hpc hold
    · dsimp only
      rw [goto_other hji]
      exact hold

theorem SwapHeld.stepFront (h : s.SwapHeld) {i : Nat} (hs : s.stepFront i = some t) : t.SwapHeld := by
  unfold Shared.stepFront at hs
  cases hi : s.front i with
  | idle =>
    rw [hi] at hs
    cases hs
  | lock text =>
    rw [hi] at hs
    dsimp only at hs
    split at hs
    · cases hs
      intro o ho
      cases ho
      change ((s.goto i (.ask text)).front i).withSwap
      rw [goto_self]
      trivial
    · cases hs
  | ask text =>
    rw [hi] at hs
    cases hs
    exact h.goto (.unlock text) (fun _ => trivial)
  | unlock text =>
    rw [hi] at hs
    cases hs
    intro o ho
    cases ho
  | spin text =>
    rw [hi] at hs
    cases hs
    split
    · exact h.goto _ (fun hf => (hi ▸ hf : (Front.spin text).withSwap).elim)
    · exact h
  | put text r b n =>
    rw [hi] at hs
    dsimp only at hs
    split at hs
    · rename_i byte _
      cases hs
      have hset : (s.setByte r (b+n) byte).SwapHeld := h
      exact hset.goto _ (fun hf => (hi ▸ hf : (Front.put text r b n).withSwap).elim)
    · cases hs
      exact h.goto _ (fun hf => (hi ▸ hf : (Front.put text r b n).withSwap).elim)
  | check text =>
    rw [hi] at hs
    cases hs
    exact h.goto _ (fun hf => (hi ▸ hf : (Front.check text).withSwap).elim)
  | rbuf text =>
    rw [hi] at hs
    cases hs
    exact h.goto _ (fun hf => (hi ▸ hf : (Front.rbuf text).withSwap).elim)
  | base text r =>
    rw [hi] at hs
    cases hs
    exact h.goto _ (fun hf => (hi ▸ hf : (Front.base text r).withSwap).elim)
  | load text =>
    rw [hi] at hs
    cases hs
    exact h.goto _ (fun hf => (hi ▸ hf : (Front.load text).withSwap).elim)
  | add text c =>
    rw [hi] at hs
    cases hs
    exact h.goto .leave (fun hf => (hi ▸ hf : (Front.add text c).withSwap).elim)
  | leave =>
    rw [hi] at hs
    cases hs
    exact h.goto .idle (fun hf => (hi ▸ hf : Front.leave.withSwap).elim)

theorem SwapHeld.writes (h : s.SwapHeld) {u : Shared} (hfront : u.front = s.front) (hsmtx : u.smtx = s.smtx)
    (hw : s.writer.withSwap → u.writer.withSwap) : u.SwapHeld := by
  intro o ho
  have hold := h o (hsmtx ▸ ho)
  cases o with
  | writer => exact hw hold
  | front j =>
    dsimp only
    rw [hfront]
    exact hold

theorem SwapHeld.stepWriter (h : s.SwapHeld) {yes : Bool} {wrote : Option Nat}
    (hs : s.stepWriter fileMaxSize yes wrote = some t) : t.SwapHeld := by
  have htaken : ∀ w : Writer, w.withSwap → SwapHeld { s with smtx := some .writer, writer := w } := by
    intro w hw o ho
    cases ho
    exact hw
  have hfree : ∀ w : Writer, SwapHeld { s with smtx := none, writer := w } := by
    intro w o ho
    cases ho
  unfold Shared.stepWriter at hs
  cases hw : s.writer with
  | top =>
    rw [hw] at hs
    cases hs
    exact h.writes rfl rfl (fun hf => (hw ▸ hf : Writer.top.withSwap).elim)
  | lock =>
    rw [hw] at hs
    dsimp only at hs
    split at hs
    · cases hs
      exact htaken _ trivial
    · cases hs
  | check timeout =>
    rw [hw] at hs
    dsimp only at hs
    split at hs
    · cases hs
      exact h.writes rfl rfl (fun _ => trivial)
    split at hs
    · cases hs
      exact h.writes rfl rfl (fun _ => trivial)
    · cases hs
      exact hfree _
  | wait =>
    rw [hw] at hs
    dsimp only at hs
    split at hs
    · cases hs
      exact htaken _ trivial
    · cases hs
  | tryLock =>
    rw [hw] at hs
    dsimp only at hs
    split at hs
    · split at hs
      · cases hs
        exact h.writes rfl rfl (fun _ => trivial)
      · cases hs
    · cases hs
      exact h.writes rfl rfl (fun _ => trivial)
  | swap own next =>
    rw [hw] at hs
    cases hs
    cases next with
    | idx => cases own <;> exact h.writes rfl rfl (fun _ => trivial)
    | _ => exact h.writes rfl rfl (fun _ => trivial)
  | unlockRead =>
    rw [hw] at hs
    cases hs
    exact h.writes rfl rfl (fun _ => trivial)
  | unlock | «continue» =>
    rw [hw] at hs
    cases hs
    exact hfree _
  | updatable =>
    rw [hw] at hs
    cases hs
    split
    · exact h.writes rfl rfl (fun hf => (hw ▸ hf : Writer.updatable.withSwap).elim)
    · exact h.writes rfl rfl (fun hf => (hw ▸ hf : Writer.updatable.withSwap).elim)
  | append w =>
    rw [hw] at hs
    dsimp only at hs
    unfold Shared.stepAppend at hs
    have hnot : ¬s.writer.withSwap := by simp [hw,Writer.withSwap]
    split at hs
    · cases hs
      exact h.writes rfl rfl (fun hf => absurd hf hnot)
    split at hs
    · cases hs
    split at hs
    · split at hs
      · cases hs
        exact h.writes rfl rfl (fun hf => absurd hf hnot)
      · cases hs
    · cases hs
      exact h.writes rfl rfl (fun hf => absurd hf hnot)
  | exited =>
    rw [hw] at hs
    cases hs

theorem SwapHeld.step (h : s.SwapHeld) {l : Label} (hs : s.step fileMaxSize l = some t) : t.SwapHeld := by
  cases l with
  | apply i text =>
    change s.apply i text = some t at hs
    unfold Shared.apply at hs
    split at hs
    · rename_i hidle _
      cases hs
      exact h.goto (.check text) (fun hf => (hidle ▸ hf : Front.idle.withSwap).elim)
    · cases hs
  | front i => exact h.stepFront hs
  | writer yes wrote => exact h.stepWriter hs
  | kill =>
    cases hs
    exact h.writes rfl rfl id

theorem Inv.waits_rank (h : s.Inv fileMaxSize) (hk : s.kflag = false) {l : Label} (hl : s.Waits l)
    (hs : s.step fileMaxSize l = some t) : t.rank + (if l.isWriter then 1 else 0) ≤ s.rank ∧ t.kflag = false := by
  obtain ⟨hf,ha,hw⟩ := hl
  have hkeeps : t.writer = s.writer ∧ t.cur = s.cur ∧ t.wcur = s.wcur ∧ t.kflag = s.kflag →
      t.rank ≤ s.rank ∧ t.kflag = false :=
    fun ⟨h1,h2,h3,h4⟩ => ⟨rank_congr hf h1 h2 h3,h4.trans hk⟩
  cases l with
  | apply i text => exact hkeeps (apply_writer hs)
  | front i => exact hkeeps (stepFront_writer hs)
  | writer yes wrote =>
    obtain ⟨n,rfl⟩ := Option.ne_none_iff_exists'.mp ha
    exact h.stepWriter_rank hf hk hw hs
  | kill => exact hw.elim

/-- While a swap is waited for, the writer has at most as many steps as its rank. -/
theorem Inv.waits_run (h : s.Inv fileMaxSize) (hk : s.kflag = false) {ls : List Label}
    (hs : Runs.run (Shared.step fileMaxSize) Waits s ls = some t) :
    (ls.countP Label.isWriter) + t.rank ≤ s.rank ∧ t.kflag = false := by
  induction ls generalizing s with
  | nil =>
    cases hs
    simp [hk]
  | cons l ls ih =>
    simp only [Runs.run] at hs
    split at hs
    · rename_i hl
      obtain ⟨u,hu,hrest⟩ := Option.bind_eq_some_iff.mp hs
      obtain ⟨hrank,hku⟩ := h.waits_rank hk hl hu
      obtain ⟨hcount,hkt⟩ := ih (h.step hl.2.1 hu) hku hrest
      refine ⟨?_,hkt⟩
      rw [List.countP_cons]
      omega
    · cases hs

theorem Inv.rank_le (h : s.Inv fileMaxSize) : s.rank ≤ DLOG_BUFSIZE+15 := by
  have hcur := h.sides.cur
  have hwcur := h.sides.wcur
  have hbig : 1 ≤ DLOG_BUFSIZE := by decide
  unfold rank
  split
  · exact Nat.zero_le _
  split <;> omega

/-- The writer can go on, or a thread that has the lock can. -/
theorem Inv.goes_on (h : s.Inv fileMaxSize) (hheld : s.SwapHeld) (hf : s.sflag = false) (hexit : s.writer ≠ .exited) :
    ∃ l, s.Waits l ∧ (s.step fileMaxSize l).isSome ∧ (l.isWriter ∨ ∃ i, l = .front i ∧ (s.front i).withSwap) := by
  have hwaits : ∀ yes, s.Waits (.writer yes (some 1)) := fun yes => ⟨hf,by simp [Allowed],Nat.one_pos⟩
  have hlock : (s.smtx = none → (s.stepWriter fileMaxSize true (some 1)).isSome) → ¬s.writer.withSwap →
      ∃ l, s.Waits l ∧ (s.step fileMaxSize l).isSome ∧
        (l.isWriter ∨ ∃ i, l = .front i ∧ (s.front i).withSwap) := by
    intro hstep hnot
    cases hs : s.smtx with
    | none => exact ⟨.writer true (some 1),hwaits true,hstep hs,.inl rfl⟩
    | some o =>
      have hold := hheld o hs
      cases o with
      | writer => exact absurd hold hnot
      | front i =>
        refine ⟨.front i,⟨hf,trivial,trivial⟩,?_,.inr ⟨i,rfl,hold⟩⟩
        change (s.stepFront i).isSome
        cases hi : s.front i with
        | ask text | unlock text => simp [Shared.stepFront,hi]
        | _ => simp [hi,Front.withSwap] at hold
  cases hw : s.writer with
  | lock | wait => exact hlock (fun hfree => by simp [Shared.stepWriter,hw,hfree]) (by simp [hw,Writer.withSwap])
  | tryLock =>
    refine ⟨.writer false (some 1),hwaits false,?_,.inl rfl⟩
    simp [Shared.step,Shared.stepWriter,hw]
  | append w =>
    have hle := h.sides.written w hw
    refine ⟨.writer true (some 1),hwaits true,?_,.inl rfl⟩
    by_cases hdone : w = s.cur
    · simp [Shared.step,Shared.stepWriter,Shared.stepAppend,hw,hdone]
    · have hlt : ¬s.cur < w := Nat.not_lt.mpr hle
      have hroom : 1 ≤ s.cur-w := by omega
      simp [Shared.step,Shared.stepWriter,Shared.stepAppend,hw,hdone,hlt,hroom]
  | exited => exact absurd hw hexit
  | _ =>
    refine ⟨.writer true (some 1),hwaits true,?_,.inl rfl⟩
    simp [Shared.step,Shared.stepWriter,hw,hf]

theorem stepWriter_exited {yes : Bool} {wrote : Option Nat} (hs : s.stepWriter fileMaxSize yes wrote = some t)
    (he : t.writer = .exited) : t.kflag = true := by
  unfold Shared.stepWriter at hs
  cases hw : s.writer with
  | top =>
    rw [hw] at hs
    cases hs
    cases hk : s.kflag <;> simp [hk] at he ⊢
  | swap own next =>
    rw [hw] at hs
    cases hs
    cases next <;> cases own <;> cases he
  | append w =>
    rw [hw] at hs
    dsimp only [Shared.stepAppend] at hs
    split at hs
    · cases hs
      cases he
    split at hs
    · cases hs
    split at hs
    · split at hs <;> cases hs
      cases he
    · cases hs
      cases he
  | tryLock | check =>
    rw [hw] at hs
    dsimp only at hs
    split at hs
    all_goals first | (split at hs <;> cases hs <;> cases he) | (cases hs; cases he)
  | lock | wait =>
    rw [hw] at hs
    dsimp only at hs
    split at hs <;> cases hs
    cases he
  | exited =>
    rw [hw] at hs
    cases hs
  | _ =>
    rw [hw] at hs
    cases hs
    cases he

structure Serves (s : Shared) (fileMaxSize : Nat) : Prop where
  inv : s.Inv fileMaxSize
  held : s.SwapHeld
  exited : s.writer = .exited → s.kflag = true

theorem Serves.step (h : s.Serves fileMaxSize) {l : Label} (hl : s.Allowed l)
    (hs : s.step fileMaxSize l = some t) : t.Serves fileMaxSize := by
  refine ⟨h.inv.step hl hs,h.held.step hs,fun he => ?_⟩
  have hkeeps : t.writer = s.writer ∧ t.cur = s.cur ∧ t.wcur = s.wcur ∧ t.kflag = s.kflag → t.kflag = true :=
    fun ⟨hw,_,_,hk⟩ => hk.trans (h.exited (hw ▸ he))
  cases l with
  | apply i text => exact hkeeps (apply_writer hs)
  | front i => exact hkeeps (stepFront_writer hs)
  | writer yes wrote => exact stepWriter_exited hs he
  | kill =>
    cases hs
    rfl

theorem Serves.reached (h : Path (Shared.step fileMaxSize) Allowed init s) : s.Serves fileMaxSize := by
  refine h.keeps (I := fun u => u.Serves fileMaxSize) (fun u l v hl hv hu => hu.step hl hv)
    ⟨Inv.initial,fun o ho => ?_,fun he => ?_⟩
  · cases ho
  · cases he

/-- Whoever asks for a swap gets it: until then the writer, or a thread that keeps it
from a lock, has a next step, and the writer has no more of them than a buffer has bytes,
and a few. -/
theorem swap_served (h : Path (Shared.step fileMaxSize) Allowed init s) (hk : s.kflag = false) {ls : List Label}
    (hs : Runs.run (Shared.step fileMaxSize) Waits s ls = some t) :
    ls.countP Label.isWriter ≤ DLOG_BUFSIZE+15 ∧
      (t.sflag = false → ∃ l, t.Waits l ∧ (t.step fileMaxSize l).isSome ∧
        (l.isWriter ∨ ∃ i, l = .front i ∧ (t.front i).withSwap)) := by
  have hserves := Serves.reached h
  obtain ⟨hcount,hkt⟩ := hserves.inv.waits_run hk hs
  have hle := hserves.inv.rank_le
  refine ⟨by omega,fun hf => ?_⟩
  have ht : t.Serves fileMaxSize :=
    (run_path hs).keeps (I := fun u => u.Serves fileMaxSize) (fun u l v hl hv hu => hu.step hl.2.1 hv) hserves
  refine ht.inv.goes_on ht.held hf (fun he => ?_)
  rw [ht.exited he] at hkt
  cases hkt

/-- A thread that logs as much as there is room for asks for a swap, and the writer is
about to tell it that there was one. -/
theorem swap_served_asked : ∃ s ls t, Path (Shared.step 1024) Allowed init s ∧
    Runs.run (Shared.step 1024) Waits s ls = some t ∧ (t.sflag = false ∧ t.writer = .swap false .finish) ∧
    ls.countP Label.isWriter = 7 ∧ 7 ≤ DLOG_BUFSIZE+15 ∧
    ∃ l, t.Waits l ∧ (t.step 1024 l).isSome ∧ (l.isWriter ∨ ∃ i, l = .front i ∧ (t.front i).withSwap) := by
  let text : List UInt8 := List.replicate DLOG_BUFSIZE 0
  have hlength : text.length = DLOG_BUFSIZE := List.length_replicate
  let s₁ : Shared := { init.goto 0 (.check text) with rmtx := some (.front 0) }
  have h₁ : Path (Shared.step 1024) Allowed init s₁ :=
    Path.next .refl (l := .apply 0 text) (Nat.le_of_eq hlength) rfl
  have h₂ : Path (Shared.step 1024) Allowed init (s₁.goto 0 (.lock text)) := by
    refine h₁.next (l := .front 0) trivial ?_
    have hfull : s₁.rcur+text.length ≥ DLOG_BUFSIZE := by
      rw [hlength]
      exact Nat.le_add_left _ _
    have hfront : s₁.front 0 = .check text := goto_self (s := init) 0 (.check text)
    simp only [Shared.step,Shared.stepFront,hfront,if_pos hfull]
  let s₃ : Shared := { (s₁.goto 0 (.lock text)).goto 0 (.ask text) with smtx := some (.front 0) }
  have h₃ : Path (Shared.step 1024) Allowed init s₃ := h₂.next (l := .front 0) trivial rfl
  let s₄ : Shared := { s₃.goto 0 (.unlock text) with sflag := false }
  have h₄ : Path (Shared.step 1024) Allowed init s₄ := h₃.next (l := .front 0) trivial rfl
  let ls : List Label := .front 0 :: List.replicate 7 (.writer true (some 1))
  have hany : (Runs.run (Shared.step 1024) Waits s₄ ls).any (fun t =>
      t.sflag = false ∧ t.writer = .swap false .finish) = true := rfl
  obtain ⟨t,ht,hcond⟩ := (Option.any_eq_true _ _).mp hany
  have hend := of_decide_eq_true hcond
  obtain ⟨hcount,hnext⟩ := swap_served h₄ rfl ht
  exact ⟨s₄,ls,t,h₄,ht,hend,rfl,hcount,hnext hend.1⟩

end Rank

end Shared
end Logger
end FluentNet
