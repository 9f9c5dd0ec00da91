import FluentNet.Library.Cells
import FluentNet.Library.Runs
import Mathlib.Algebra.Group.Nat.Defs
import Mathlib.Tactic.ByContra
set_option autoImplicit false

/-!
The two buffers of the logger. Any number of threads put their texts into the one,
while a thread of its own writes what is in the other to files. A step is one access
to what they share, and any thread may take the next one.
-/

namespace FluentNet
namespace Logger
open Cells Runs

def DLOG_BUFSIZE : Nat := 1 <<< 20

/-- Where a thread is in `Scheduler::apply`; `text` is what `Resolver::put` will put. -/
inductive Front where
  | idle
  /-- with `rmtx` from here on -/
  | check (text : List UInt8)
  | lock (text : List UInt8)
  /-- with `smtx`, too -/
  | ask (text : List UInt8)
  | unlock (text : List UInt8)
  | spin (text : List UInt8)
  | rbuf (text : List UInt8)
  | base (text : List UInt8) (rbuf : Nat)
  /-- the next byte is the `n`th -/
  | put (text : List UInt8) (rbuf base n : Nat)
  | load (text : List UInt8)
  | add (text : List UInt8) (rcur : Nat)
  | leave
  deriving DecidableEq

inductive Swap where
  | ridx | widx | save | clear | finish | cur | reset | idx
  deriving DecidableEq

inductive Writer where
  | top
  | lock
  /-- with `smtx`; the predicate of `wait_for`, `timeout` when the time is over -/
  | check (timeout : Bool)
  | wait
  | tryLock
  /-- `own` when `rmtx` is held -/
  | swap (own : Bool) (next : Swap)
  | unlockRead
  | unlock
  | continue
  | updatable
  | append (written : Nat)
  | exited
  deriving DecidableEq

inductive Owner where
  | front (i : Nat)
  | writer
  deriving DecidableEq

structure Shared where
  buf : Nat → Nat → UInt8
  ridx : Nat
  rcur : Nat
  widx : Nat
  wcur : Nat
  rmtx : Option Owner
  smtx : Option Owner
  sflag : Bool
  kflag : Bool
  front : Nat → Front
  writer : Writer
  /-- the writer's own -/
  cur : Nat
  idx : Nat
  /-- what has gone to the open file, and to those before it, the last one first -/
  file : List UInt8
  closed : List (List UInt8)
  /-- `_written` of the open file -/
  written : Nat
  /-- the texts that were put, the last one first -/
  texts : List (List UInt8)

namespace Shared

def init : Shared where
  buf := fun _ _ => 0
  ridx := 0
  rcur := 0
  widx := 1
  wcur := 0
  rmtx := none
  smtx := none
  sflag := true
  kflag := false
  front := fun _ => .idle
  writer := .top
  cur := 0
  idx := 0
  file := []
  closed := []
  written := 0
  texts := []

def goto (s : Shared) (i : Nat) (pc : Front) : Shared := { s with front := Function.update s.front i pc }

def setByte (s : Shared) (r j : Nat) (b : UInt8) : Shared :=
  { s with buf := Function.update s.buf r (Function.update (s.buf r) j b) }

/-- `Scheduler::apply`, called by the thread numbered `i`; nothing while it has to wait. -/
def apply (s : Shared) (i : Nat) (text : List UInt8) : Option Shared :=
  match s.front i,s.rmtx with
  | .idle,none => some { s.goto i (.check text) with rmtx := some (.front i) }
  | _,_ => none

def stepFront (s : Shared) (i : Nat) : Option Shared :=
  match s.front i with
  | .idle => none
  | .check text => some (s.goto i (if s.rcur+text.length ≥ DLOG_BUFSIZE then .lock text else .rbuf text))
  | .lock text => if s.smtx = none then some { s.goto i (.ask text) with smtx := some (.front i) } else none
  | .ask text => some { s.goto i (.unlock text) with sflag := false }
  | .unlock text => some { s.goto i (.spin text) with smtx := none }
  | .spin text => some (if s.sflag then s.goto i (.rbuf text) else s)
  | .rbuf text => some (s.goto i (.base text s.ridx))
  | .base text r => some (s.goto i (.put text r s.rcur 0))
  | .put text r b n =>
      match text[n]? with
      | some byte => some ((s.setByte r (b+n) byte).goto i (.put text r b (n+1)))
      | none => some (s.goto i (.load text))
  | .load text => some (s.goto i (.add text s.rcur))
  | .add text rcur => some { s.goto i .leave with rcur := rcur+text.length, texts := text :: s.texts }
  | .leave => some { s.goto i .idle with rmtx := none }

def stepSwap (s : Shared) (own : Bool) : Swap → Shared
  | .ridx => { s with ridx := s.ridx ^^^ 1, writer := .swap own .widx }
  | .widx => { s with widx := s.widx ^^^ 1, writer := .swap own .save }
  | .save => { s with wcur := s.rcur, writer := .swap own .clear }
  | .clear => { s with rcur := 0, writer := .swap own .finish }
  | .finish => { s with sflag := true, writer := .swap own .cur }
  | .cur => { s with cur := s.wcur, writer := .swap own .reset }
  | .reset => { s with wcur := 0, writer := .swap own .idx }
  | .idx => { s with idx := s.widx, writer := if own then .unlockRead else .unlock }

/-- `file.updatable(cur)`; `elapsed` when the file is older than `fileRollingInterval`. -/
def updatable (s : Shared) (fileMaxSize : Nat) (elapsed : Bool) : Bool :=
  s.written+s.cur ≥ fileMaxSize || elapsed

/-- `file.update`: a new file is opened, and the old one closed. -/
def update (s : Shared) : Shared := { s with file := [], closed := s.file :: s.closed, written := 0 }

/-- A pass of the loop of `File::append`, which has written `written` bytes so far.
`wrote` is what `write` returns, nothing for -1. Nothing where the code reads
outside of the buffer. -/
def stepAppend (s : Shared) (written : Nat) (wrote : Option Nat) : Option Shared :=
  if written = s.cur then some { s with written := s.written+written, writer := .top }
  else if s.cur < written then none
  else match wrote with
    | some n =>
        if n ≤ s.cur-written then
          some { s with file := s.file ++ slice (s.buf s.idx) written n, writer := .append (written+n) }
        else none
    | none => some { s with writer := .append ((written+(2^64-1))%2^64) }

/-- One step of the writer. `yes` is what it is told: that the time is over, that
`try_lock` got the lock, that the file is too old. -/
def stepWriter (s : Shared) (fileMaxSize : Nat) (yes : Bool) (wrote : Option Nat) : Option Shared :=
  match s.writer with
  | .top => some { s with writer := if s.kflag then .exited else .lock }
  | .lock => if s.smtx = none then some { s with smtx := some .writer, writer := .check false } else none
  | .check timeout =>
      if s.sflag = false then some { s with writer := .swap false .ridx }
      else if timeout then some { s with writer := .tryLock }
      else some { s with smtx := none, writer := .wait }
  | .wait => if s.smtx = none then some { s with smtx := some .writer, writer := .check yes } else none
  | .tryLock =>
      if yes then
        if s.rmtx = none then some { s with rmtx := some .writer, writer := .swap true .ridx } else none
      else some { s with writer := .continue }
  | .swap own next => some (s.stepSwap own next)
  | .unlockRead => some { s with rmtx := none, writer := .unlock }
  | .unlock => some { s with smtx := none, writer := .updatable }
  | .continue => some { s with smtx := none, writer := .top }
  | .updatable =>
      let s := if s.updatable fileMaxSize yes then s.update else s
      some { s with writer := .append 0 }
  | .append written => s.stepAppend written wrote
  | .exited => none

inductive Label where
  | apply (i : Nat) (text : List UInt8)
  | front (i : Nat)
  | writer (yes : Bool) (wrote : Option Nat)
  | kill
  deriving DecidableEq

/-- Nobody logs a text that is longer than a buffer, and `write` does not fail. -/
def Allowed (_ : Shared) : Label → Prop
  | .apply _ text => text.length ≤ DLOG_BUFSIZE
  | .writer _ wrote => wrote ≠ none
  | _ => True

instance (s : Shared) : (l : Label) → Decidable (s.Allowed l)
  | .apply _ text => inferInstanceAs (Decidable (text.length ≤ DLOG_BUFSIZE))
  | .writer _ wrote => inferInstanceAs (Decidable (wrote ≠ none))
  | .front _ | .kill => .isTrue trivial

def step (fileMaxSize : Nat) (s : Shared) : Label → Option Shared
  | .apply i text => s.apply i text
  | .front i => s.stepFront i
  | .writer yes wrote => s.stepWriter fileMaxSize yes wrote
  | .kill => some { s with kflag := true }

end Shared

def Front.withSwap : Front → Prop
  | .ask _ | .unlock _ => True
  | _ => False

def Front.asked : Front → Prop
  | .unlock _ | .spin _ => True
  | _ => False

def Swap.early : Swap → Prop
  | .ridx | .widx | .save | .clear | .finish => True
  | _ => False

def Writer.withRead : Writer → Prop
  | .swap own _ => own = true
  | .unlockRead => True
  | _ => False

def Writer.withSwap : Writer → Prop
  | .check _ | .tryLock | .swap _ _ | .unlockRead | .unlock | .continue => True
  | _ => False

def Writer.early : Writer → Prop
  | .swap _ next => next.early
  | _ => False

def Writer.plain : Writer → Prop
  | .top | .lock | .check _ | .wait | .tryLock | .swap _ .ridx | .continue | .exited => True
  | _ => False

def Writer.late : Writer → Prop
  | .unlockRead | .unlock | .updatable | .append _ => True
  | _ => False

namespace Shared

def pendingAt (s : Shared) : Writer → List UInt8
  | .swap _ .widx => slice (s.buf (s.ridx ^^^ 1)) 0 s.rcur
  | .swap _ .save => slice (s.buf s.widx) 0 s.rcur
  | .swap _ .clear | .swap _ .finish | .swap _ .cur => slice (s.buf s.widx) 0 s.wcur
  | .swap _ .reset | .swap _ .idx => slice (s.buf s.widx) 0 s.cur
  | .unlockRead | .unlock | .updatable => slice (s.buf s.idx) 0 s.cur
  | .append written => slice (s.buf s.idx) written (s.cur-written)
  | _ => []

def waitingAt (s : Shared) : Writer → List UInt8
  | .swap _ .widx | .swap _ .save | .swap _ .clear => []
  | _ => slice (s.buf s.ridx) 0 s.rcur

def pending (s : Shared) : List UInt8 := s.pendingAt s.writer
def waiting (s : Shared) : List UInt8 := s.waitingAt s.writer

def disk (s : Shared) : List UInt8 := (s.file :: s.closed).reverse.flatten

def put (s : Shared) : List UInt8 := s.texts.reverse.flatten

def Held (s : Shared) (text : List UInt8) (n : Nat) : Prop :=
  ∀ k (hk : k < text.length), k < n → s.buf s.ridx (s.rcur+k) = text[k]

def Placing (s : Shared) : Front → Prop
  | .idle | .leave => True
  | .check text | .lock text | .ask text | .unlock text | .spin text => text.length ≤ DLOG_BUFSIZE
  | .rbuf text => s.rcur+text.length ≤ DLOG_BUFSIZE
  | .base text r => r = s.ridx ∧ s.rcur+text.length ≤ DLOG_BUFSIZE
  | .put text r b n => r = s.ridx ∧ b = s.rcur ∧ s.rcur+text.length ≤ DLOG_BUFSIZE ∧ n ≤ text.length ∧ s.Held text n
  | .load text => s.rcur+text.length ≤ DLOG_BUFSIZE ∧ s.Held text text.length
  | .add text c => c = s.rcur ∧ s.rcur+text.length ≤ DLOG_BUFSIZE ∧ s.Held text text.length

/-- Who is where has the locks for it, and a swap goes on only while nobody puts. -/
structure Locks (s : Shared) : Prop where
  read : ∀ i, s.front i ≠ .idle → s.rmtx = some (.front i)
  readW : s.writer.withRead → s.rmtx = some .writer
  swapF : ∀ i, (s.front i).withSwap → s.smtx = some (.front i)
  swapW : s.writer.withSwap → s.smtx = some .writer
  asked : s.sflag = false → ∃ i, (s.front i).asked
  early : s.writer.early → s.writer.withRead ∨ s.sflag = false
  empty : ∀ i, (s.front i).asked → s.sflag = true → s.rcur = 0

/-- The two sides are different buffers, and no more was counted than there is room for. -/
structure Sides (s : Shared) : Prop where
  ridx : s.ridx < 2
  widx : (∀ own, s.writer ≠ .swap own .widx) → s.widx = s.ridx ^^^ 1
  turned : ∀ own, s.writer = .swap own .widx → s.widx = s.ridx
  idx : s.writer.late → s.idx = s.widx
  rcur : s.rcur ≤ DLOG_BUFSIZE
  wcur : s.wcur ≤ DLOG_BUFSIZE
  cur : s.cur ≤ DLOG_BUFSIZE
  saved : ∀ own, s.writer = .swap own .clear → s.wcur = s.rcur
  cleared : ∀ own, s.writer = .swap own .finish → s.rcur = 0
  written : ∀ w, s.writer = .append w → w ≤ s.cur

/-- No file grows beyond its limit, save by one buffer. -/
structure Files (s : Shared) (fileMaxSize : Nat) : Prop where
  count : (∀ w, s.writer ≠ .append w) → s.file.length = s.written
  growing : ∀ w, s.writer = .append w →
    s.file.length = s.written+w ∧ (s.written+s.cur < fileMaxSize ∨ s.written = 0)
  file : s.file.length < fileMaxSize ∨ s.file.length ≤ DLOG_BUFSIZE
  closed : ∀ f ∈ s.closed, f.length < fileMaxSize ∨ f.length ≤ DLOG_BUFSIZE

structure Inv (fileMaxSize : Nat) (s : Shared) : Prop where
  locks : s.Locks
  sides : s.Sides
  fronts : ∀ i, s.Placing (s.front i)
  files : s.Files fileMaxSize
  /-- nothing is lost, and nothing is written twice or out of order -/
  content : s.disk ++ s.pending ++ s.waiting = s.put

section Fronts
variable {s : Shared} {fileMaxSize : Nat}

theorem Sides.kept (h : s.Sides) {u : Shared} (hw : u.writer = s.writer) (hridx : u.ridx = s.ridx)
    (hwidx : u.widx = s.widx) (hidx : u.idx = s.idx) (hrcur : u.rcur = s.rcur) (hwcur : u.wcur = s.wcur)
    (hcur : u.cur = s.cur) : u.Sides := by
  obtain ⟨h1,h2,h3,h4,h5,h6,h7,h8,h9,h10⟩ := h
  constructor <;> simp only [hw,hridx,hwidx,hidx,hrcur,hwcur,hcur] <;> assumption

theorem Files.kept (h : s.Files fileMaxSize) {u : Shared} (hw : u.writer = s.writer) (hfile : u.file = s.file)
    (hclosed : u.closed = s.closed) (hwritten : u.written = s.written) (hcur : u.cur = s.cur) :
    u.Files fileMaxSize := by
  obtain ⟨h1,h2,h3,h4⟩ := h
  constructor <;> simp only [hw,hfile,hclosed,hwritten,hcur] <;> assumption

theorem Locks.quiet (h : s.Locks) (he : s.writer.early) (i : Nat) : s.front i = .idle ∨ (s.front i).asked := by
  by_cases hi : s.front i = .idle
  · exact .inl hi
  · refine .inr ?_
    rcases h.early he with hw | hf
    · have hsame := (h.read i hi).symm.trans (h.readW hw)
      cases hsame
    · obtain ⟨j,hj⟩ := h.asked hf
      have hjne : s.front j ≠ .idle := by
        intro hidle
        rw [hidle] at hj
        cases hj
      have hsame := (h.read i hi).symm.trans (h.read j hjne)
      cases hsame
      exact hj

theorem Locks.alone (h : s.Locks) {i j : Nat} (hi : s.front i ≠ .idle) (hj : s.front j ≠ .idle) : j = i := by
  have hsame := (h.read j hj).symm.trans (h.read i hi)
  cases hsame
  rfl

theorem goto_self (i : Nat) (pc : Front) : (s.goto i pc).front i = pc := Function.update_self _ _ _

theorem goto_other {i j : Nat} (h : j ≠ i) (pc : Front) : (s.goto i pc).front j = s.front j :=
  Function.update_of_ne h _ _

theorem Locks.late (h : s.Locks) {i : Nat} (hi : s.front i ≠ .idle) (hasked : ¬(s.front i).asked) :
    ¬s.writer.early := by
  intro he
  rcases h.quiet he i with hidle | ha
  · exact hi hidle
  · exact hasked ha

theorem Locks.goes (h : s.Locks) {i : Nat} {pc : Front} {u : Shared} (hi : s.front i ≠ .idle)
    (hfront : u.front = (s.goto i pc).front) (hwriter : u.writer = s.writer)
    (hread : pc ≠ .idle → u.rmtx = s.rmtx) (hkeep : s.smtx = some .writer → u.smtx = some .writer)
    (hswap : pc.withSwap → u.smtx = some (.front i)) (hasked : u.sflag = false → pc.asked)
    (hearly : s.writer.early → u.sflag = false) (hempty : pc.asked → u.sflag = true → u.rcur = 0) : u.Locks := by
  have hself : u.front i = pc := by rw [hfront,goto_self]
  -- there is nobody else
  have hothers : ∀ j, j ≠ i → u.front j = .idle := by
    intro j hji
    rw [hfront,goto_other hji]
    by_contra hj
    exact hji (h.alone hi hj)
  refine ⟨fun j hj => ?_,fun hw => ?_,fun j hj => ?_,fun hw => hkeep (h.swapW (hwriter ▸ hw)),fun hf => ⟨i,?_⟩,
    fun he => .inr (hearly (hwriter ▸ he)),fun j hj hf => ?_⟩
  · by_cases hji : j = i
    · subst hji
      exact (hread (hself ▸ hj)).trans (h.read j hi)
    · exact absurd (hothers j hji) hj
  · have hsame := (h.read i hi).symm.trans (h.readW (hwriter ▸ hw))
    cases hsame
  · by_cases hji : j = i
    · subst hji
      exact hswap (hself ▸ hj)
    · rw [hothers j hji] at hj
      cases hj
  · exact hself ▸ hasked hf
  · by_cases hji : j = i
    · subst hji
      exact hempty (hself ▸ hj) hf
    · rw [hothers j hji] at hj
      cases hj

theorem Locks.goto (h : s.Locks) {i : Nat} {pc : Front} (hi : s.front i ≠ .idle)
    (hasked : (s.front i).asked → s.sflag = true) (hswap : ¬pc.withSwap) (hnot : ¬pc.asked) :
    (s.goto i pc).Locks := by
  have hflag : s.sflag ≠ false := by
    intro hf
    obtain ⟨j,hj⟩ := h.asked hf
    have hji : j = i := by
      refine h.alone hi (fun hidle => ?_)
      rw [hidle] at hj
      cases hj
    subst hji
    rw [hasked hj] at hf
    cases hf
  refine h.goes hi rfl rfl (fun _ => rfl) id (fun hf => absurd hf hswap) (fun hf => absurd hf hflag) (fun he => ?_)
    (fun ha => absurd ha hnot)
  rcases h.early he with hw | hf
  · have hsame := (h.read i hi).symm.trans (h.readW hw)
    cases hsame
  · exact absurd hf hflag

theorem Inv.goto (h : s.Inv fileMaxSize) {i : Nat} {pc : Front} (hlocks : (s.goto i pc).Locks) (hpc : s.Placing pc) :
    (s.goto i pc).Inv fileMaxSize := by
  refine ⟨hlocks,h.sides.kept rfl rfl rfl rfl rfl rfl rfl,
    fun j => ?_,h.files.kept rfl rfl rfl rfl rfl,h.content⟩
  by_cases hji : j = i
  · subst hji
    rw [goto_self]
    exact hpc
  · rw [goto_other hji]
    exact h.fronts j

theorem Inv.relock (h : s.Inv fileMaxSize) {i : Nat} {pc : Front} {rmtx smtx : Option Owner} {sflag : Bool}
    (hlocks : Locks { s.goto i pc with rmtx, smtx, sflag }) (hpc : s.Placing pc) :
    Inv fileMaxSize { s.goto i pc with rmtx, smtx, sflag } := by
  refine ⟨hlocks,h.sides.kept rfl rfl rfl rfl rfl rfl rfl,
    fun j => ?_,h.files.kept rfl rfl rfl rfl rfl,h.content⟩
  by_cases hji : j = i
  · subst hji
    change s.Placing ((s.goto j pc).front j)
    rw [goto_self]
    exact hpc
  · change s.Placing ((s.goto i pc).front j)
    rw [goto_other hji]
    exact h.fronts j

theorem Inv.apply (h : s.Inv fileMaxSize) {i : Nat} {text : List UInt8} {t : Shared}
    (ht : text.length ≤ DLOG_BUFSIZE) (hs : s.apply i text = some t) : t.Inv fileMaxSize := by
  unfold Shared.apply at hs
  split at hs
  · rename_i hidle hfree
    cases hs
    have hl := h.locks
    have hnone : ∀ j, s.front j = .idle := by
      intro j
      by_contra hj
      have howner := hl.read j hj
      rw [hfree] at howner
      cases howner
    refine h.relock ⟨fun j hj => ?_,fun hw => ?_,fun j hj => ?_,hl.swapW,fun hf => ?_,hl.early,fun j hj hf => ?_⟩ ht
    · by_cases hji : j = i
      · rw [hji]
      · exact absurd ((goto_other hji _).trans (hnone j)) hj
    · have howner := hl.readW hw
      rw [hfree] at howner
      cases howner
    · by_cases hji : j = i
      · subst hji
        change ((s.goto j _).front j).withSwap at hj
        rw [goto_self] at hj
        cases hj
      · change ((s.goto i _).front j).withSwap at hj
        rw [goto_other hji,hnone j] at hj
        cases hj
    · obtain ⟨j,hj⟩ := hl.asked hf
      rw [hnone j] at hj
      cases hj
    · by_cases hji : j = i
      · subst hji
        change ((s.goto j _).front j).asked at hj
        rw [goto_self] at hj
        cases hj
      · change ((s.goto i _).front j).asked at hj
        rw [goto_other hji,hnone j] at hj
        cases hj
  · cases hs

theorem other_side {i : Nat} (h : i < 2) : i ^^^ 1 < 2 ∧ i ^^^ 1 ≠ i ∧ i ^^^ 1 ^^^ 1 = i := by
  have hi : i = 0 ∨ i = 1 := by omega
  rcases hi with rfl | rfl <;> decide

theorem setByte_other {r x j : Nat} {b : UInt8} (h : x ≠ r) : (s.setByte r j b).buf x = s.buf x :=
  Function.update_of_ne h _ _

theorem slice_setByte {r j n : Nat} {b : UInt8} (h : n ≤ j) :
    slice ((s.setByte r j b).buf r) 0 n = slice (s.buf r) 0 n := by
  have hrow : (s.setByte r j b).buf r = Function.update (s.buf r) j b := Function.update_self _ _ _
  rw [hrow]
  exact slice_update (.inr (by omega))

theorem Sides.setByte (h : s.Sides) (hlate : ¬s.writer.early) {j : Nat} {b : UInt8} (hj : s.rcur ≤ j) :
    (s.setByte s.ridx j b).pending = s.pending ∧ (s.setByte s.ridx j b).waiting = s.waiting := by
  obtain ⟨_,hne,_⟩ := other_side h.ridx
  have hsame : ∀ i n x, x = s.ridx ^^^ 1 → slice ((s.setByte s.ridx j b).buf x) i n = slice (s.buf x) i n := by
    intro i n x hx
    rw [setByte_other (by rw [hx]; exact hne)]
  have hkept : slice ((s.setByte s.ridx j b).buf s.ridx) 0 s.rcur = slice (s.buf s.ridx) 0 s.rcur :=
    slice_setByte hj
  have hwidx : s.widx = s.ridx ^^^ 1 := h.widx (fun own hw => hlate (hw ▸ trivial))
  have hidx := h.idx
  change (s.setByte s.ridx j b).pendingAt s.writer = s.pendingAt s.writer ∧
    (s.setByte s.ridx j b).waitingAt s.writer = s.waitingAt s.writer
  cases hw : s.writer with
  | swap own next =>
    rw [hw] at hlate
    cases next with
    | ridx | widx | save | clear | finish => exact absurd trivial hlate
    | cur | reset | idx => exact ⟨hsame _ _ _ hwidx,hkept⟩
  | unlockRead | unlock | updatable | append =>
    rw [hw] at hidx
    exact ⟨hsame _ _ _ ((hidx trivial).trans hwidx),hkept⟩
  | _ => exact ⟨rfl,hkept⟩

theorem Inv.put (h : s.Inv fileMaxSize) {i b n r : Nat} {text : List UInt8} (hi : s.front i = .put text r b n)
    {byte : UInt8} (hbyte : text[n]? = some byte) :
    ((s.setByte r (b+n) byte).goto i (.put text r b (n+1))).Inv fileMaxSize := by
  have hfront := h.fronts i
  rw [hi] at hfront
  obtain ⟨rfl,rfl,hroom,_,hheld⟩ := hfront
  obtain ⟨hn,rfl⟩ := List.getElem?_eq_some_iff.mp hbyte
  have hidle : s.front i ≠ .idle := by simp [hi]
  have hasked : ¬(s.front i).asked := by simp [hi,Front.asked]
  obtain ⟨hpending,hwaiting⟩ := h.sides.setByte (h.locks.late hidle hasked) (j := s.rcur+n) (b := text[n]) (by omega)
  let u := s.setByte s.ridx (s.rcur+n) text[n]
  have hrow : u.buf s.ridx = Function.update (s.buf s.ridx) (s.rcur+n) text[n] := Function.update_self _ _ _
  have hu : u.Inv fileMaxSize := by
    refine ⟨⟨h.locks.read,h.locks.readW,h.locks.swapF,h.locks.swapW,h.locks.asked,h.locks.early,h.locks.empty⟩,
      h.sides.kept rfl rfl rfl rfl rfl rfl rfl,fun j => ?_,
      h.files.kept rfl rfl rfl rfl rfl,?_⟩
    · by_cases hj : s.front j = .idle
      · change u.Placing (s.front j)
        rw [hj]
        trivial
      · have hji : j = i := h.locks.alone hidle hj
        subst hji
        change u.Placing (s.front j)
        rw [hi]
        refine ⟨rfl,rfl,hroom,Nat.le_of_lt hn,fun k hk hkn => ?_⟩
        change u.buf s.ridx (s.rcur+k) = text[k]
        rw [hrow,Function.update_of_ne (by omega)]
        exact hheld k hk hkn
    · change s.disk ++ u.pending ++ u.waiting = s.put
      rw [hpending,hwaiting]
      exact h.content
  refine hu.goto (hu.locks.goto hidle (fun ha => absurd ha hasked) id id)
    ⟨rfl,rfl,hroom,hn,fun k hk hkn => ?_⟩
  change u.buf s.ridx (s.rcur+k) = text[k]
  rw [hrow]
  by_cases hkn' : k = n
  · subst hkn'
    exact Function.update_self _ _ _
  · rw [Function.update_of_ne (by omega)]
    exact hheld k hk (by omega)

theorem Inv.add (h : s.Inv fileMaxSize) {i c : Nat} {text : List UInt8} (hi : s.front i = .add text c) :
    Inv fileMaxSize { s.goto i .leave with rcur := c+text.length, texts := text :: s.texts } := by
  have hfront := h.fronts i
  rw [hi] at hfront
  obtain ⟨rfl,hroom,hheld⟩ := hfront
  have hidle : s.front i ≠ .idle := by simp [hi]
  have hasked : ¬(s.front i).asked := by simp [hi,Front.asked]
  have hlate := h.locks.late hidle hasked
  have hl : (s.goto i .leave).Locks := h.locks.goto hidle (fun ha => absurd ha hasked) id id
  have hothers : ∀ j, (s.goto i .leave).front j = .leave ∨ (s.goto i .leave).front j = .idle := by
    intro j
    by_cases hji : j = i
    · subst hji
      exact .inl (goto_self _ _)
    · rw [goto_other hji]
      by_contra hj
      exact hji (h.locks.alone hidle (fun hidle => hj (.inr hidle)))
  have htext : slice (s.buf s.ridx) s.rcur text.length = text := slice_eq (fun k hk => hheld k hk hk)
  have hcontent := h.content
  refine ⟨⟨hl.read,hl.readW,hl.swapF,hl.swapW,hl.asked,hl.early,fun j hj _ => ?_⟩,?_,fun j => ?_,
    h.files.kept rfl rfl rfl rfl rfl,?_⟩
  · change ((s.goto i .leave).front j).asked at hj
    rcases hothers j with hj' | hj' <;> rw [hj'] at hj <;> cases hj
  · have hnot : ∀ own next, s.writer = .swap own next → ¬next.early := by
      intro own next hw he
      exact hlate (hw ▸ he)
    exact ⟨h.sides.ridx,h.sides.widx,h.sides.turned,h.sides.idx,hroom,h.sides.wcur,h.sides.cur,
      fun own hw => absurd trivial (hnot own .clear hw),fun own hw => absurd trivial (hnot own .finish hw),
      h.sides.written⟩
  · change Shared.Placing _ ((s.goto i .leave).front j)
    rcases hothers j with hj | hj <;> rw [hj] <;> trivial
  · -- what has been put is longer by the text, and so is what waits
    let u : Shared := { s.goto i .leave with rcur := s.rcur+text.length, texts := text :: s.texts }
    have hput : u.put = s.put ++ text := by simp [u,Shared.put]
    have hmore : slice (s.buf s.ridx) 0 (s.rcur+text.length) = slice (s.buf s.ridx) 0 s.rcur ++ text := by
      rw [slice_add,Nat.zero_add,htext]
    change s.disk ++ u.pendingAt s.writer ++ u.waitingAt s.writer = u.put
    rw [hput,← hcontent]
    change _ = s.disk ++ s.pendingAt s.writer ++ s.waitingAt s.writer ++ text
    cases hw : s.writer with
    | swap own next =>
      rw [hw] at hlate
      cases next with
      | ridx | widx | save | clear | finish => exact absurd trivial hlate
      | cur | reset | idx => exact (congrArg (_ ++ ·) hmore).trans (List.append_assoc _ _ _).symm
    | _ => exact (congrArg (_ ++ ·) hmore).trans (List.append_assoc _ _ _).symm

theorem Inv.stepFront (h : s.Inv fileMaxSize) {i : Nat} {t : Shared} (hs : s.stepFront i = some t) :
    t.Inv fileMaxSize := by
  have hl := h.locks
  have hpc := h.fronts i
  -- a thread that asks for nothing, and gives nothing back
  have hgoes : ∀ pc : Front, s.front i ≠ .idle → ¬(s.front i).asked → ¬pc.withSwap → ¬pc.asked → s.Placing pc →
      (s.goto i pc).Inv fileMaxSize :=
    fun pc hidle hasked hswap hnot hpl => h.goto (hl.goto hidle (fun ha => absurd ha hasked) hswap hnot) hpl
  have hflag : s.front i ≠ .idle → ¬(s.front i).asked → s.sflag ≠ false := by
    intro hidle hasked hf
    obtain ⟨j,hj⟩ := hl.asked hf
    have hji : j = i := hl.alone hidle (fun hidle => by simp [hidle,Front.asked] at hj)
    exact hasked (hji ▸ hj)
  unfold Shared.stepFront at hs
  cases hi : s.front i with
  | idle =>
    rw [hi] at hs
    cases hs
  | check text =>
    rw [hi] at hs hpc
    cases hs
    split
    · exact hgoes (.lock text) (by simp [hi]) (by simp [hi,Front.asked]) id id hpc
    · exact hgoes (.rbuf text) (by simp [hi]) (by simp [hi,Front.asked]) id id (show _ ≤ _ by omega)
  | lock text =>
    rw [hi] at hs hpc
    have hidle : s.front i ≠ .idle := by simp [hi]
    have hasked : ¬(s.front i).asked := by simp [hi,Front.asked]
    dsimp only at hs
    split at hs
    · rename_i hfree
      cases hs
      refine h.relock (hl.goes hidle rfl rfl (fun _ => rfl) (fun hw => ?_) (fun _ => rfl)
        (fun hf => absurd hf (hflag hidle hasked)) (fun he => absurd he (hl.late hidle hasked)) (fun ha => ha.elim)) hpc
      rw [hfree] at hw
      cases hw
    · cases hs
  | ask text =>
    rw [hi] at hs hpc
    have hidle : s.front i ≠ .idle := by simp [hi]
    have hown : s.smtx = some (.front i) := hl.swapF i (by simp [hi,Front.withSwap])
    cases hs
    exact h.relock (hl.goes hidle rfl rfl (fun _ => rfl) id (fun _ => hown) (fun _ => trivial) (fun _ => rfl)
      (fun _ hf => by cases hf)) hpc
  | unlock text =>
    rw [hi] at hs hpc
    have hidle : s.front i ≠ .idle := by simp [hi]
    have hown : s.smtx = some (.front i) := hl.swapF i (by simp [hi,Front.withSwap])
    cases hs
    refine h.relock (hl.goes hidle rfl rfl (fun _ => rfl) (fun hw => ?_) (fun hf => hf.elim) (fun _ => trivial)
      (fun he => ?_) (fun _ hf => hl.empty i (by simp [hi,Front.asked]) hf)) hpc
    · rw [hown] at hw
      cases hw
    · have hw : s.writer.withSwap := by
        cases hwr : s.writer with
        | swap own next => trivial
        | _ => simp [hwr,Writer.early] at he
      have hsame := hown.symm.trans (hl.swapW hw)
      cases hsame
  | spin text =>
    rw [hi] at hs hpc
    have hidle : s.front i ≠ .idle := by simp [hi]
    cases hs
    cases hf : s.sflag with
    | true =>
      have hzero := hl.empty i (by simp [hi,Front.asked]) hf
      have hroom : s.rcur+text.length ≤ DLOG_BUFSIZE := by
        rw [hzero,Nat.zero_add]
        exact hpc
      exact h.goto (hl.goto hidle (fun _ => hf) id id) hroom
    | false => exact h
  | rbuf text =>
    rw [hi] at hs hpc
    cases hs
    exact hgoes (.base text s.ridx) (by simp [hi]) (by simp [hi,Front.asked]) id id ⟨rfl,hpc⟩
  | base text r =>
    rw [hi] at hs hpc
    cases hs
    exact hgoes (.put text r s.rcur 0) (by simp [hi]) (by simp [hi,Front.asked]) id id
      ⟨hpc.1,rfl,hpc.2,Nat.zero_le _,fun k _ hk => absurd hk (Nat.not_lt_zero k)⟩
  | put text r b n =>
    rw [hi] at hs hpc
    dsimp only at hs
    split at hs
    · rename_i byte hbyte
      cases hs
      exact h.put hi hbyte
    · rename_i hnone
      cases hs
      obtain ⟨_,_,hroom,hn,hheld⟩ := hpc
      have hall : text.length ≤ n := List.getElem?_eq_none_iff.mp hnone
      exact hgoes (.load text) (by simp [hi]) (by simp [hi,Front.asked]) id id
        ⟨hroom,fun k hk _ => hheld k hk (by omega)⟩
  | load text =>
    rw [hi] at hs hpc
    cases hs
    exact hgoes (.add text s.rcur) (by simp [hi]) (by simp [hi,Front.asked]) id id ⟨rfl,hpc⟩
  | add text c =>
    rw [hi] at hs
    cases hs
    exact h.add hi
  | leave =>
    rw [hi] at hs
    have hidle : s.front i ≠ .idle := by simp [hi]
    have hasked : ¬(s.front i).asked := by simp [hi,Front.asked]
    cases hs
    exact h.relock (hl.goes hidle rfl rfl (fun hne => absurd rfl hne) id (fun hf => hf.elim)
      (fun hf => absurd hf (hflag hidle hasked)) (fun he => absurd he (hl.late hidle hasked)) (fun ha => ha.elim)) trivial

end Fronts

section Writing
variable {s : Shared} {fileMaxSize : Nat}

theorem Locks.writes (h : s.Locks) {u : Shared} (hfront : u.front = s.front)
    (hread : ∀ i, s.rmtx = some (.front i) → u.rmtx = some (.front i))
    (hreadW : u.writer.withRead → u.rmtx = some .writer)
    (hswap : ∀ i, s.smtx = some (.front i) → u.smtx = some (.front i))
    (hswapW : u.writer.withSwap → u.smtx = some .writer) (hasked : u.sflag = false → s.sflag = false)
    (hearly : u.writer.early → u.writer.withRead ∨ u.sflag = false)
    (hempty : u.sflag = true → u.rcur = 0 ∨ s.sflag = true ∧ u.rcur = s.rcur) : u.Locks := by
  refine ⟨fun i hi => ?_,hreadW,fun i hi => ?_,hswapW,fun hf => ?_,hearly,fun i hi hf => ?_⟩
  · rw [hfront] at hi
    exact hread i (h.read i hi)
  · rw [hfront] at hi
    exact hswap i (h.swapF i hi)
  · rw [hfront]
    exact h.asked (hasked hf)
  · rw [hfront] at hi
    rcases hempty hf with hz | ⟨hf',hsame⟩
    · exact hz
    · exact hsame.trans (h.empty i hi hf')

theorem Inv.fronts_kept (h : s.Inv fileMaxSize) {u : Shared} (hfront : u.front = s.front) (hbuf : u.buf = s.buf)
    (hridx : u.ridx = s.ridx) (hrcur : u.rcur = s.rcur) (i : Nat) : u.Placing (u.front i) := by
  have hi := h.fronts i
  rw [hfront]
  cases hpc : s.front i <;> rw [hpc] at hi <;> simp only [Placing,Held,hbuf,hridx,hrcur] <;> exact hi

theorem Inv.fronts_quiet (h : s.Inv fileMaxSize) {u : Shared} (hfront : u.front = s.front) (he : s.writer.early)
    (i : Nat) : u.Placing (u.front i) := by
  have hi := h.fronts i
  rw [hfront]
  rcases h.locks.quiet he i with hidle | hasked
  · rw [hidle]
    trivial
  · cases hpc : s.front i with
    | unlock text | spin text =>
      rw [hpc] at hi
      exact hi
    | _ => simp [hpc,Front.asked] at hasked

theorem plain_pendingAt {w : Writer} (hw : w.plain) :
    s.pendingAt w = [] ∧ s.waitingAt w = slice (s.buf s.ridx) 0 s.rcur := by
  cases w with
  | swap own next =>
    cases next with
    | ridx => exact ⟨rfl,rfl⟩
    | _ => cases hw
  | unlockRead | unlock | updatable | append => cases hw
  | _ => exact ⟨rfl,rfl⟩

theorem plain_not {w : Writer} (hw : w.plain) : ¬w.late ∧ (∀ n, w ≠ .append n) ∧
    (∀ own next, w = .swap own next → next = .ridx) := by
  cases w with
  | swap own next =>
    cases next with
    | ridx => exact ⟨id,by simp,by simp⟩
    | _ => cases hw
  | unlockRead | unlock | updatable | append => cases hw
  | _ => exact ⟨id,by simp,by simp⟩

theorem Inv.plain (h : s.Inv fileMaxSize) {w : Writer} {rmtx smtx : Option Owner} (hs : s.writer.plain) (hw : w.plain)
    (hlocks : Locks { s with rmtx, smtx, writer := w }) : Inv fileMaxSize { s with rmtx, smtx, writer := w } := by
  obtain ⟨_,hsappend,hsswap⟩ := plain_not hs
  obtain ⟨hlate,happend,hswap⟩ := plain_not hw
  have hwidx : s.widx = s.ridx ^^^ 1 := h.sides.widx (fun own he => absurd (hsswap _ _ he) (by simp))
  refine ⟨hlocks,⟨h.sides.ridx,fun _ => hwidx,fun own he => absurd (hswap _ _ he) (by simp),fun hl => absurd hl hlate,
    h.sides.rcur,h.sides.wcur,h.sides.cur,fun own he => absurd (hswap _ _ he) (by simp),fun own he => absurd (hswap _ _ he) (by simp),
    fun n he => absurd he (happend n)⟩,h.fronts_kept rfl rfl rfl rfl,⟨fun _ => h.files.count hsappend,
    fun n he => absurd he (happend n),h.files.file,h.files.closed⟩,?_⟩
  have hcontent := h.content
  change s.disk ++ s.pendingAt s.writer ++ s.waitingAt s.writer = s.put at hcontent
  change s.disk ++ s.pendingAt w ++ s.waitingAt w = s.put
  obtain ⟨hp,hwait⟩ := plain_pendingAt (s := s) hs
  obtain ⟨hp',hwait'⟩ := plain_pendingAt (s := s) hw
  rw [hp',hwait',← hp,← hwait]
  exact hcontent

theorem Locks.swaps (h : s.Locks) {own : Bool} {next : Swap} (hw : s.writer = .swap own next) {u : Shared}
    (hfront : u.front = s.front) (hrmtx : u.rmtx = s.rmtx) (hsmtx : u.smtx = s.smtx)
    (hread : u.writer.withRead → own = true)
    (hearly : u.writer.early → next.early ∧ (own = true → u.writer.withRead) ∧ u.sflag = s.sflag)
    (hasked : u.sflag = false → s.sflag = false)
    (hempty : u.sflag = true → u.rcur = 0 ∨ s.sflag = true ∧ u.rcur = s.rcur) : u.Locks := by
  have hswapW : s.smtx = some .writer := h.swapW (hw ▸ trivial)
  have hown : own = true → s.rmtx = some .writer := fun ho => h.readW (hw ▸ ho)
  refine h.writes hfront (fun i hi => hrmtx.trans hi) (fun hr => hrmtx.trans (hown (hread hr)))
    (fun i hi => hsmtx.trans hi) (fun _ => hsmtx.trans hswapW) hasked (fun he => ?_) hempty
  obtain ⟨hn,hkeep,hflag⟩ := hearly he
  rcases h.early (hw ▸ hn) with hr | hf
  · rw [hw] at hr
    exact .inl (hkeep hr)
  · exact .inr (hflag.trans hf)

theorem Inv.stepSwap (h : s.Inv fileMaxSize) {own : Bool} {next : Swap} (hw : s.writer = .swap own next) :
    (s.stepSwap own next).Inv fileMaxSize := by
  have hl := h.locks
  have hcontent := h.content
  change s.disk ++ s.pendingAt s.writer ++ s.waitingAt s.writer = s.put at hcontent
  rw [hw] at hcontent
  have hnot : ∀ w, s.writer ≠ .append w := by simp [hw]
  have hcount := h.files.count hnot
  obtain ⟨hlt,_,hback⟩ := other_side h.sides.ridx
  have hfiles : ∀ w : Writer, (∀ n, w ≠ .append n) → Files { s with writer := w } fileMaxSize :=
    fun w hn => ⟨fun _ => hcount,fun n he => absurd he (hn n),h.files.file,h.files.closed⟩
  have hearly : s.writer.early → ∀ u : Shared, u.front = s.front → ∀ i, u.Placing (u.front i) :=
    fun he u hu => h.fronts_quiet hu he
  cases next with
  | ridx =>
    have hwidx := h.sides.widx (by simp [hw])
    refine ⟨hl.swaps hw rfl rfl rfl id (fun _ => ⟨trivial,id,rfl⟩) id (fun hf => .inr ⟨hf,rfl⟩),
      ⟨hlt,fun hne => absurd rfl (hne own),fun _ _ => hwidx,fun hf => hf.elim,h.sides.rcur,h.sides.wcur,h.sides.cur,
        by simp [Shared.stepSwap],by simp [Shared.stepSwap],by simp [Shared.stepSwap]⟩,hearly (by rw [hw]; trivial) _ rfl,
      (hfiles (.swap own .widx) (by simp)).kept rfl rfl rfl rfl rfl,?_⟩
    change s.disk ++ slice (s.buf (s.ridx ^^^ 1 ^^^ 1)) 0 s.rcur ++ [] = s.put
    rw [hback,List.append_nil]
    rwa [show s.pendingAt (.swap own .ridx) = [] from rfl,List.append_nil] at hcontent
  | widx =>
    have hwidx := h.sides.turned own hw
    refine ⟨hl.swaps hw rfl rfl rfl id (fun _ => ⟨trivial,id,rfl⟩) id (fun hf => .inr ⟨hf,rfl⟩),
      ⟨h.sides.ridx,fun _ => by simp only [Shared.stepSwap,hwidx],by simp [Shared.stepSwap],fun hf => hf.elim,
        h.sides.rcur,h.sides.wcur,h.sides.cur,by simp [Shared.stepSwap],by simp [Shared.stepSwap],
        by simp [Shared.stepSwap]⟩,hearly (by rw [hw]; trivial) _ rfl,
      (hfiles (.swap own .save) (by simp)).kept rfl rfl rfl rfl rfl,?_⟩
    change s.disk ++ slice (s.buf (s.widx ^^^ 1)) 0 s.rcur ++ [] = s.put
    rw [hwidx]
    exact hcontent
  | save =>
    have hwidx := h.sides.widx (by simp [hw])
    refine ⟨hl.swaps hw rfl rfl rfl id (fun _ => ⟨trivial,id,rfl⟩) id (fun hf => .inr ⟨hf,rfl⟩),
      ⟨h.sides.ridx,fun _ => hwidx,by simp [Shared.stepSwap],fun hf => hf.elim,
        h.sides.rcur,h.sides.rcur,h.sides.cur,fun _ _ => rfl,by simp [Shared.stepSwap],
        by simp [Shared.stepSwap]⟩,hearly (by rw [hw]; trivial) _ rfl,
      (hfiles (.swap own .clear) (by simp)).kept rfl rfl rfl rfl rfl,hcontent⟩
  | clear =>
    have hwidx := h.sides.widx (by simp [hw])
    refine ⟨hl.swaps hw rfl rfl rfl id (fun _ => ⟨trivial,id,rfl⟩) id (fun _ => .inl rfl),
      ⟨h.sides.ridx,fun _ => hwidx,by simp [Shared.stepSwap],fun hf => hf.elim,
        Nat.zero_le _,h.sides.wcur,h.sides.cur,by simp [Shared.stepSwap],fun _ _ => rfl,
        by simp [Shared.stepSwap]⟩,hearly (by rw [hw]; trivial) _ rfl,
      (hfiles (.swap own .finish) (by simp)).kept rfl rfl rfl rfl rfl,hcontent⟩
  | finish =>
    have hwidx := h.sides.widx (by simp [hw])
    refine ⟨hl.swaps hw rfl rfl rfl id (fun hf => hf.elim) (fun hf => by cases hf)
        (fun _ => .inl (h.sides.cleared own hw)),
      ⟨h.sides.ridx,fun _ => hwidx,by simp [Shared.stepSwap],fun hf => hf.elim,
        h.sides.rcur,h.sides.wcur,h.sides.cur,by simp [Shared.stepSwap],by simp [Shared.stepSwap],
        by simp [Shared.stepSwap]⟩,h.fronts_kept rfl rfl rfl rfl,
      (hfiles (.swap own .cur) (by simp)).kept rfl rfl rfl rfl rfl,hcontent⟩
  | cur =>
    have hwidx := h.sides.widx (by simp [hw])
    refine ⟨hl.swaps hw rfl rfl rfl id (fun hf => hf.elim) id (fun hf => .inr ⟨hf,rfl⟩),
      ⟨h.sides.ridx,fun _ => hwidx,by simp [Shared.stepSwap],fun hf => hf.elim,
        h.sides.rcur,h.sides.wcur,h.sides.wcur,by simp [Shared.stepSwap],by simp [Shared.stepSwap],
        by simp [Shared.stepSwap]⟩,h.fronts_kept rfl rfl rfl rfl,
      ⟨fun _ => hcount,by simp [Shared.stepSwap],h.files.file,h.files.closed⟩,hcontent⟩
  | reset =>
    have hwidx := h.sides.widx (by simp [hw])
    refine ⟨hl.swaps hw rfl rfl rfl id (fun hf => hf.elim) id (fun hf => .inr ⟨hf,rfl⟩),
      ⟨h.sides.ridx,fun _ => hwidx,by simp [Shared.stepSwap],fun hf => hf.elim,
        h.sides.rcur,Nat.zero_le _,h.sides.cur,by simp [Shared.stepSwap],by simp [Shared.stepSwap],
        by simp [Shared.stepSwap]⟩,h.fronts_kept rfl rfl rfl rfl,
      (hfiles (.swap own .idx) (by simp)).kept rfl rfl rfl rfl rfl,hcontent⟩
  | idx =>
    have hwidx := h.sides.widx (by simp [hw])
    -- from here it is known by the number that the writer keeps for itself
    have hnext : ∀ w : Writer, w = .unlockRead ∧ own = true ∨ w = .unlock →
        Inv fileMaxSize { s with idx := s.widx, writer := w } := by
      intro w hww
      have hplain : (∀ n, w ≠ .append n) ∧ (∀ o n, w ≠ .swap o n) ∧ ¬w.early ∧ (w.withRead → own = true) ∧
          (∀ v : Shared, v.pendingAt w = slice (v.buf v.idx) 0 v.cur) ∧
          ∀ v : Shared, v.waitingAt w = slice (v.buf v.ridx) 0 v.rcur := by
        rcases hww with ⟨rfl,ho⟩ | rfl
        · exact ⟨by simp,by simp,id,fun _ => ho,fun _ => rfl,fun _ => rfl⟩
        · exact ⟨by simp,by simp,id,fun hf => hf.elim,fun _ => rfl,fun _ => rfl⟩
      obtain ⟨ha,hs,he,hr,hp,hwt⟩ := hplain
      refine ⟨hl.swaps hw rfl rfl rfl hr (fun h => absurd h he) id (fun hf => .inr ⟨hf,rfl⟩),
        ⟨h.sides.ridx,fun _ => hwidx,fun o h => absurd h (hs o _),fun _ => rfl,h.sides.rcur,h.sides.wcur,h.sides.cur,
          fun o h => absurd h (hs o _),fun o h => absurd h (hs o _),fun n h => absurd h (ha n)⟩,
        h.fronts_kept rfl rfl rfl rfl,(hfiles w ha).kept rfl rfl rfl rfl rfl,?_⟩
      change s.disk ++ Shared.pendingAt _ w ++ Shared.waitingAt _ w = s.put
      rw [hp,hwt]
      exact hcontent
    cases own with
    | true => exact hnext .unlockRead (.inl ⟨rfl,rfl⟩)
    | false => exact hnext .unlock (.inr rfl)

theorem Inv.late (h : s.Inv fileMaxSize) {w : Writer} {rmtx smtx : Option Owner} (hs : s.writer.late)
    (hsa : ∀ n, s.writer ≠ .append n) (hw : w.late) (hwa : ∀ n, w ≠ .append n)
    (hlocks : Locks { s with rmtx, smtx, writer := w }) : Inv fileMaxSize { s with rmtx, smtx, writer := w } := by
  have hswap : ∀ v : Writer, v.late → ∀ own next, v ≠ .swap own next := by
    rintro v hv own next rfl
    exact hv
  have hsame : ∀ v : Writer, v.late → (∀ n, v ≠ .append n) →
      s.pendingAt v = slice (s.buf s.idx) 0 s.cur ∧ s.waitingAt v = slice (s.buf s.ridx) 0 s.rcur := by
    intro v hv hva
    cases v with
    | unlockRead | unlock | updatable => exact ⟨rfl,rfl⟩
    | append n => exact absurd rfl (hva n)
    | _ => cases hv
  have hcontent := h.content
  change s.disk ++ s.pendingAt s.writer ++ s.waitingAt s.writer = s.put at hcontent
  refine ⟨hlocks,⟨h.sides.ridx,fun _ => h.sides.widx (fun o => hswap _ hs o _),fun o he => absurd he (hswap _ hw o _),
    fun _ => h.sides.idx hs,h.sides.rcur,h.sides.wcur,h.sides.cur,fun o he => absurd he (hswap _ hw o _),
    fun o he => absurd he (hswap _ hw o _),fun n he => absurd he (hwa n)⟩,h.fronts_kept rfl rfl rfl rfl,
    ⟨fun _ => h.files.count hsa,fun n he => absurd he (hwa n),h.files.file,h.files.closed⟩,?_⟩
  change s.disk ++ s.pendingAt w ++ s.waitingAt w = s.put
  rw [(hsame w hw hwa).1,(hsame w hw hwa).2,← (hsame _ hs hsa).1,← (hsame _ hs hsa).2]
  exact hcontent

theorem Inv.updatable (h : s.Inv fileMaxSize) (hw : s.writer = .updatable) (elapsed : Bool) :
    Inv fileMaxSize { (if s.updatable fileMaxSize elapsed then s.update else s) with writer := .append 0 } := by
  have hl := h.locks
  have hcontent := h.content
  change s.disk ++ s.pendingAt s.writer ++ s.waitingAt s.writer = s.put at hcontent
  rw [hw] at hcontent
  have hcount := h.files.count (by simp [hw])
  have hwidx := h.sides.widx (by simp [hw])
  have hidx := h.sides.idx (hw ▸ trivial)
  have hlocks : ∀ u : Shared, u.front = s.front → u.rmtx = s.rmtx → u.smtx = s.smtx → u.sflag = s.sflag →
      u.rcur = s.rcur → u.writer = .append 0 → u.Locks := by
    intro u hf hr hs hflag hrc huw
    refine hl.writes hf (fun i hi => hr.trans hi) (fun h => ?_) (fun i hi => hs.trans hi) (fun h => ?_)
      (fun h => hflag ▸ h) (fun h => ?_) (fun h => .inr ⟨hflag ▸ h,hrc⟩)
    all_goals
      rw [huw] at h
      cases h
  have hsides : ∀ u : Shared, u.ridx = s.ridx → u.widx = s.widx → u.idx = s.idx → u.rcur = s.rcur →
      u.wcur = s.wcur → u.cur = s.cur → u.writer = .append 0 → u.Sides := by
    intro u hr hwi hi hrc hwc hc huw
    refine ⟨hr ▸ h.sides.ridx,fun _ => by rw [hwi,hr,hwidx],by simp [huw],fun _ => by rw [hi,hwi,hidx],
      hrc ▸ h.sides.rcur,hwc ▸ h.sides.wcur,hc ▸ h.sides.cur,by simp [huw],by simp [huw],fun n he => ?_⟩
    rw [huw] at he
    cases he
    exact Nat.zero_le _
  split
  · refine ⟨hlocks _ rfl rfl rfl rfl rfl rfl,hsides _ rfl rfl rfl rfl rfl rfl rfl,h.fronts_kept rfl rfl rfl rfl,
      ⟨by simp,fun n he => ?_,.inr (Nat.zero_le _),?_⟩,?_⟩
    · cases he
      exact ⟨rfl,.inr rfl⟩
    · intro f hf
      rcases List.mem_cons.mp hf with rfl | hf
      · exact h.files.file
      · exact h.files.closed f hf
    · change ([] :: s.file :: s.closed).reverse.flatten ++ slice (s.buf s.idx) 0 (s.cur-0) ++
        slice (s.buf s.ridx) 0 s.rcur = s.put
      rw [List.reverse_cons,List.flatten_append,List.flatten_singleton,List.append_nil]
      exact hcontent
  · rename_i hroom
    refine ⟨hlocks _ rfl rfl rfl rfl rfl rfl,hsides _ rfl rfl rfl rfl rfl rfl rfl,h.fronts_kept rfl rfl rfl rfl,
      ⟨by simp,fun n he => ?_,h.files.file,h.files.closed⟩,hcontent⟩
    cases he
    refine ⟨hcount,.inl ?_⟩
    simp only [Shared.updatable,ge_iff_le,Bool.or_eq_true,decide_eq_true_eq,not_or,Nat.not_le] at hroom
    exact hroom.1

theorem Inv.append (h : s.Inv fileMaxSize) {n w : Nat} {t : Shared} (hw : s.writer = .append w)
    (hs : s.stepAppend w (some n) = some t) : t.Inv fileMaxSize := by
  have hl := h.locks
  have hcontent := h.content
  change s.disk ++ s.pendingAt s.writer ++ s.waitingAt s.writer = s.put at hcontent
  rw [hw] at hcontent
  have hwidx := h.sides.widx (by simp [hw])
  obtain ⟨hlength,hfits⟩ := h.files.growing w hw
  have hle := h.sides.written w hw
  have hlocks : ∀ v : Writer, ¬v.withRead → ¬v.withSwap → ¬v.early → Locks { s with writer := v } := by
    intro v hr hsw he
    exact hl.writes rfl (fun _ hi => hi) (fun h => absurd h hr) (fun _ hi => hi) (fun h => absurd h hsw) id
      (fun h => absurd h he) (fun h => .inr ⟨h,rfl⟩)
  unfold Shared.stepAppend at hs
  split at hs
  · -- the buffer is written
    rename_i hdone
    subst hdone
    cases hs
    have hlt := hlocks .top id id id
    refine ⟨⟨hlt.read,hlt.readW,hlt.swapF,hlt.swapW,hlt.asked,hlt.early,hlt.empty⟩,
      ⟨h.sides.ridx,fun _ => hwidx,by simp,fun hf => hf.elim,h.sides.rcur,h.sides.wcur,h.sides.cur,by simp,by simp,
        by simp⟩,h.fronts_kept rfl rfl rfl rfl,⟨fun _ => hlength,by simp,h.files.file,h.files.closed⟩,?_⟩
    change s.disk ++ [] ++ slice (s.buf s.ridx) 0 s.rcur = s.put
    change s.disk ++ slice (s.buf s.idx) s.cur (s.cur-s.cur) ++ slice (s.buf s.ridx) 0 s.rcur = s.put at hcontent
    rwa [Nat.sub_self,slice_zero] at hcontent
  split at hs
  · cases hs
  dsimp only at hs
  split at hs
  · rename_i hn
    cases hs
    have hlt := hlocks (.append (w+n)) id id id
    refine ⟨⟨hlt.read,hlt.readW,hlt.swapF,hlt.swapW,hlt.asked,hlt.early,hlt.empty⟩,
      ⟨h.sides.ridx,fun _ => hwidx,by simp,fun _ => h.sides.idx (hw ▸ trivial),h.sides.rcur,h.sides.wcur,h.sides.cur,
        by simp,by simp,fun m he => ?_⟩,h.fronts_kept rfl rfl rfl rfl,⟨by simp,fun m he => ?_,?_,h.files.closed⟩,?_⟩
    · cases he
      change w+n ≤ s.cur
      omega
    · cases he
      refine ⟨?_,hfits⟩
      rw [List.length_append,slice_length]
      change s.file.length+n = s.written+(w+n)
      omega
    · rw [List.length_append,slice_length]
      have hcur := h.sides.cur
      omega
    · have hsplit : slice (s.buf s.idx) w (s.cur-w) =
          slice (s.buf s.idx) w n ++ slice (s.buf s.idx) (w+n) (s.cur-(w+n)) := by
        rw [slice_split hn,Nat.sub_add_eq]
      change s.disk ++ slice (s.buf s.idx) w (s.cur-w) ++ slice (s.buf s.ridx) 0 s.rcur = s.put at hcontent
      change ((s.file ++ slice (s.buf s.idx) w n) :: s.closed).reverse.flatten ++
        slice (s.buf s.idx) (w+n) (s.cur-(w+n)) ++ slice (s.buf s.ridx) 0 s.rcur = s.put
      rw [← hcontent,hsplit]
      simp only [disk,List.reverse_cons,List.flatten_append,List.flatten_singleton,List.append_assoc]
  · cases hs

theorem Inv.stepWriter (h : s.Inv fileMaxSize) {yes : Bool} {n : Nat} {t : Shared}
    (hs : s.stepWriter fileMaxSize yes (some n) = some t) : t.Inv fileMaxSize := by
  have hl := h.locks
  -- the locks stay what they are, and the writer does not need them more than before
  have hkeeps : ∀ w : Writer, (w.withRead → s.writer.withRead) → (w.withSwap → s.writer.withSwap) → ¬w.early →
      Locks { s with writer := w } :=
    fun w hr hsw he => hl.writes rfl (fun _ hi => hi) (fun h => hl.readW (hr h)) (fun _ hi => hi)
      (fun h => hl.swapW (hsw h)) id (fun h => absurd h he) (fun h => .inr ⟨h,rfl⟩)
  have htakes : ∀ w : Writer, s.smtx = none → ¬w.withRead → ¬w.early →
      Locks { s with smtx := some .writer, writer := w } := by
    intro w hfree hr he
    refine hl.writes rfl (fun _ hi => hi) (fun h => absurd h hr) (fun i hi => ?_) (fun _ => rfl) id
      (fun h => absurd h he) (fun h => .inr ⟨h,rfl⟩)
    rw [hfree] at hi
    cases hi
  have hgives : ∀ w : Writer, s.writer.withSwap → ¬w.withRead → ¬w.withSwap → ¬w.early →
      Locks { s with smtx := none, writer := w } := by
    intro w hown hr hsw he
    refine hl.writes rfl (fun _ hi => hi) (fun h => absurd h hr) (fun i hi => ?_) (fun h => absurd h hsw) id
      (fun h => absurd h he) (fun h => .inr ⟨h,rfl⟩)
    have hsame := hi.symm.trans (hl.swapW hown)
    cases hsame
  unfold Shared.stepWriter at hs
  cases hw : s.writer with
  | top =>
    rw [hw] at hs
    cases hs
    split
    · exact h.plain (hw ▸ trivial) (w := .exited) trivial (hkeeps _ (fun hf => hf.elim) (fun hf => hf.elim) id)
    · exact h.plain (hw ▸ trivial) (w := .lock) trivial (hkeeps _ (fun hf => hf.elim) (fun hf => hf.elim) id)
  | lock =>
    rw [hw] at hs
    dsimp only at hs
    split at hs
    · rename_i hfree
      cases hs
      exact h.plain (hw ▸ trivial) (w := .check false) trivial (htakes _ hfree id id)
    · cases hs
  | check timeout =>
    rw [hw] at hs
    dsimp only at hs
    have hown : s.smtx = some .writer := hl.swapW (hw ▸ trivial)
    split at hs
    · rename_i hf
      cases hs
      exact h.plain (hw ▸ trivial) (w := .swap false .ridx) trivial (hl.writes rfl (fun _ hi => hi)
        (fun hr => by cases hr) (fun _ hi => hi) (fun _ => hown) id (fun _ => .inr hf) (fun h => .inr ⟨h,rfl⟩))
    split at hs
    · cases hs
      exact h.plain (hw ▸ trivial) (w := .tryLock) trivial (hkeeps _ (fun hf => hf.elim) (fun _ => hw ▸ trivial) id)
    · cases hs
      exact h.plain (hw ▸ trivial) (w := .wait) trivial (hgives _ (hw ▸ trivial) id id id)
  | wait =>
    rw [hw] at hs
    dsimp only at hs
    split at hs
    · rename_i hfree
      cases hs
      exact h.plain (hw ▸ trivial) (w := .check yes) trivial (htakes _ hfree id id)
    · cases hs
  | tryLock =>
    rw [hw] at hs
    dsimp only at hs
    have hown : s.smtx = some .writer := hl.swapW (hw ▸ trivial)
    split at hs
    · split at hs
      · rename_i hfree
        cases hs
        refine h.plain (hw ▸ trivial) (w := .swap true .ridx) trivial (hl.writes rfl (fun i hi => ?_)
          (fun _ => rfl) (fun _ hi => hi) (fun _ => hown) id (fun _ => .inl rfl) (fun h => .inr ⟨h,rfl⟩))
        rw [hfree] at hi
        cases hi
      · cases hs
    · cases hs
      exact h.plain (hw ▸ trivial) (w := .continue) trivial (hkeeps _ (fun hf => hf.elim) (fun _ => hw ▸ trivial) id)
  | swap own next =>
    rw [hw] at hs
    cases hs
    exact h.stepSwap hw
  | unlockRead =>
    rw [hw] at hs
    cases hs
    refine h.late (hw ▸ trivial) (by simp [hw]) (w := .unlock) trivial (by simp) (hl.writes rfl (fun i hi => ?_)
      (fun hr => hr.elim) (fun _ hi => hi) (fun _ => hl.swapW (hw ▸ trivial)) id (fun he => he.elim)
      (fun h => .inr ⟨h,rfl⟩))
    have hsame := hi.symm.trans (hl.readW (hw ▸ trivial))
    cases hsame
  | unlock =>
    rw [hw] at hs
    cases hs
    exact h.late (hw ▸ trivial) (by simp [hw]) (w := .updatable) trivial (by simp) (hgives _ (hw ▸ trivial) id id id)
  | «continue» =>
    rw [hw] at hs
    cases hs
    exact h.plain (hw ▸ trivial) (w := .top) trivial (hgives _ (hw ▸ trivial) id id id)
  | updatable =>
    rw [hw] at hs
    cases hs
    exact h.updatable hw yes
  | append w =>
    rw [hw] at hs
    exact h.append hw hs
  | exited =>
    rw [hw] at hs
    cases hs

theorem Inv.initial : init.Inv fileMaxSize := by
  refine ⟨⟨fun i hi => absurd rfl hi,fun hf => hf.elim,fun i hi => hi.elim,fun hf => hf.elim,
    fun hf => absurd hf (by decide),fun hf => hf.elim,fun i hi => hi.elim⟩,⟨by decide,fun _ => rfl,by simp [init],
    fun hf => hf.elim,Nat.zero_le _,Nat.zero_le _,Nat.zero_le _,by simp [init],by simp [init],by simp [init]⟩,
    fun i => trivial,⟨fun _ => rfl,by simp [init],.inr (Nat.zero_le _),by simp [init]⟩,rfl⟩

theorem Inv.step (h : s.Inv fileMaxSize) {l : Label} {t : Shared} (hl : s.Allowed l)
    (hs : s.step fileMaxSize l = some t) : t.Inv fileMaxSize := by
  cases l with
  | apply i text => exact h.apply hl hs
  | front i => exact h.stepFront hs
  | writer yes wrote =>
    obtain ⟨n,rfl⟩ := Option.ne_none_iff_exists'.mp hl
    exact h.stepWriter hs
  | kill =>
    cases hs
    exact ⟨⟨h.locks.read,h.locks.readW,h.locks.swapF,h.locks.swapW,h.locks.asked,h.locks.early,h.locks.empty⟩,
      h.sides.kept rfl rfl rfl rfl rfl rfl rfl,h.fronts_kept rfl rfl rfl rfl,h.files.kept rfl rfl rfl rfl rfl,
      h.content⟩

theorem Inv.reached {t : Shared} (hs : s.Inv fileMaxSize) (h : Path (Shared.step fileMaxSize) Allowed s t) :
    t.Inv fileMaxSize :=
  h.keeps (fun _ _ _ hl ht hu => hu.step hl ht) hs

structure Safe (s : Shared) (fileMaxSize : Nat) : Prop where
  /-- the files hold what was put, in that order, up to what is still in a buffer -/
  content : s.disk ++ s.pending ++ s.waiting = s.put
  pending : s.pending.length ≤ DLOG_BUFSIZE
  waiting : s.waiting.length ≤ DLOG_BUFSIZE
  files : ∀ f ∈ s.file :: s.closed, f.length < fileMaxSize ∨ f.length ≤ DLOG_BUFSIZE
  /-- what is put lies behind what waits, as far as it has been copied -/
  placed : ∀ i text r b n, s.front i = .put text r b n → slice (s.buf s.ridx) s.rcur n = text.take n
  /-- nobody puts a byte outside of a buffer, or into the one that is being written -/
  puts : ∀ i text r b n, s.front i = .put text r b n → n < text.length → b+n < DLOG_BUFSIZE ∧
    r = s.ridx ∧ (s.writer.late → r ≠ s.idx) ∧ ∀ j, j ≠ i → s.front j = .idle
  reads : ∀ w, s.writer = .append w → w ≤ s.cur ∧ s.cur ≤ DLOG_BUFSIZE

end Writing

end Shared

end Logger
end FluentNet
