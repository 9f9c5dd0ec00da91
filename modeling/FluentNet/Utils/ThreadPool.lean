import FluentNet.Library.Runs
import FluentNet.Library.Weights
set_option autoImplicit false

/-!
`ThreadPool`, any number of workers and of threads that submit, step by step.
-/

namespace FluentNet
open Runs Weights

/-- A worker by the next thing it does in `run`; `task` is the one it has taken. -/
inductive Worker (α : Type) where
  | start
  | lock
  | look
  | unlock (task : α)
  | run (task : α)
  | leave
  | wait
  | done
  deriving DecidableEq, Repr

namespace Worker
variable {α : Type}

def waits : Worker α → Nat
  | .wait => 1
  | _ => 0

def wake : Worker α → Worker α
  | .wait => .lock
  | w => w

def holds : Worker α → Nat
  | .look | .unlock _ | .leave => 1
  | _ => 0

/-- It will look at the queue before it waits. -/
def comes : Worker α → Nat
  | .start | .lock | .look => 1
  | _ => 0

def left : Worker α → Nat
  | .leave | .done => 1
  | _ => 0

def held : Worker α → List α
  | .unlock task | .run task => [task]
  | _ => []

def rank : Worker α → Nat
  | .start => 4
  | .lock => 3
  | .look => 2
  | .unlock _ => 5
  | .run _ => 4
  | .leave => 1
  | .wait | .done => 0

end Worker

inductive Caller (α : Type) where
  | idle
  | lock (task : α)
  | emplace (task : α)
  | unlock
  | notify
  deriving DecidableEq, Repr

namespace Caller
variable {α : Type}

def holds : Caller α → Nat
  | .emplace _ | .unlock => 1
  | _ => 0

def comes : Caller α → Nat
  | .unlock | .notify => 1
  | _ => 0

end Caller

/-- The thread that has the pool, up to the end of its destructor. -/
inductive Owner where
  | alive
  | lock
  | stop
  | unlock
  | notify
  | gone
  deriving DecidableEq, Repr

def Owner.holds : Owner → Nat
  | .stop | .unlock => 1
  | _ => 0

/-- `submitted`, `taken` and `finished` are nothing the code has: the tasks in the order
in which the queue got them, in which workers took them, and in which they ended. -/
structure ThreadPool (α : Type) where
  mutex : Bool
  stop : Bool
  tasks : List α
  workers : List (Worker α)
  callers : List (Caller α)
  owner : Owner
  submitted : List α
  taken : List α
  finished : List α
  deriving DecidableEq, Repr

namespace ThreadPool
variable {α : Type}

/-- `ThreadPool(size)`; as many threads as there are may submit to it. -/
def make (size threads : Nat) : ThreadPool α :=
  ⟨false,false,[],List.replicate size .start,List.replicate threads .idle,.alive,[],[],[]⟩

/-- What happens next, and what is not up to the code: who submits what, whom `notify_one`
wakes, and that a worker wakes although nobody notified it. -/
inductive Label (α : Type) where
  | worker (i : Nat)
  | spurious (i : Nat)
  | execute (j : Nat) (task : α)
  | caller (j : Nat) (woken : Option Nat)
  | destroy
  | owner
  deriving DecidableEq, Repr

def turn (s : ThreadPool α) (i : Nat) (w : Worker α) : ThreadPool α := { s with workers := s.workers.set i w }

def turnCaller (s : ThreadPool α) (j : Nat) (c : Caller α) : ThreadPool α := { s with callers := s.callers.set j c }

/-- `ThreadPool::run`. A worker that starts when the pool is gone reads what is no more. -/
def stepWorker (s : ThreadPool α) (i : Nat) : Option (ThreadPool α) :=
  match s.workers[i]? with
  | some .start => if s.owner = .gone then none else some (s.turn i .lock)
  | some .lock => if s.mutex then none else some { s.turn i .look with mutex := true }
  | some .look =>
      match s.tasks with
      | task :: tasks => some { s.turn i (.unlock task) with tasks, taken := s.taken ++ [task] }
      | [] => if s.stop then some (s.turn i .leave) else some { s.turn i .wait with mutex := false }
  | some (.unlock task) => some { s.turn i (.run task) with mutex := false }
  | some (.run task) => some { s.turn i .lock with finished := s.finished ++ [task] }
  | some .leave => some { s.turn i .done with mutex := false }
  | _ => none

def stepCaller (s : ThreadPool α) (j : Nat) (woken : Option Nat) : Option (ThreadPool α) :=
  match s.callers[j]? with
  | some (.lock task) => if s.mutex then none else some { s.turnCaller j (.emplace task) with mutex := true }
  | some (.emplace task) =>
      some { s.turnCaller j .unlock with tasks := s.tasks ++ [task], submitted := s.submitted ++ [task] }
  | some .unlock => some { s.turnCaller j .notify with mutex := false }
  | some .notify =>
      match woken with
      | some i => match s.workers[i]? with
          | some .wait => some ((s.turn i .lock).turnCaller j .idle)
          | _ => none
      | none => if weigh Worker.waits s.workers = 0 then some (s.turnCaller j .idle) else none
  | _ => none

def stepOwner (s : ThreadPool α) : Option (ThreadPool α) :=
  match s.owner with
  | .lock => if s.mutex then none else some { s with mutex := true, owner := .stop }
  | .stop => some { s with stop := true, owner := .unlock }
  | .unlock => some { s with mutex := false, owner := .notify }
  | .notify => some { s with workers := s.workers.map Worker.wake, owner := .gone }
  | _ => none

/-- Nothing where the thread has to wait, or where there is nothing for it to do. -/
def step (s : ThreadPool α) : Label α → Option (ThreadPool α)
  | .worker i => s.stepWorker i
  | .spurious i => match s.workers[i]? with
      | some .wait => some (s.turn i .lock)
      | _ => none
  | .execute j task => match s.callers[j]? with
      | some .idle => some (s.turnCaller j (.lock task))
      | _ => none
  | .caller j woken => s.stepCaller j woken
  | .destroy => if s.owner = .alive then some { s with owner := .lock } else none
  | .owner => s.stepOwner

/-- Nobody uses a pool that is being destroyed. -/
def Allowed (s : ThreadPool α) : Label α → Prop
  | .execute _ _ => s.owner = .alive
  | .destroy => ∀ c ∈ s.callers, c = .idle
  | _ => True

instance (c : Caller α) : Decidable (c = .idle) :=
  match c with
  | .idle => .isTrue rfl
  | .lock _ | .emplace _ | .unlock | .notify => .isFalse nofun

instance (w : Worker α) : Decidable (w = .start) :=
  match w with
  | .start => .isTrue rfl
  | .lock | .look | .unlock _ | .run _ | .leave | .wait | .done => .isFalse nofun

instance (s : ThreadPool α) : (l : Label α) → Decidable (s.Allowed l)
  | .execute _ _ => inferInstanceAs (Decidable (s.owner = .alive))
  | .destroy => inferInstanceAs (Decidable (∀ c ∈ s.callers, c = .idle))
  | .worker _ | .spurious _ | .caller _ _ | .owner => .isTrue trivial

/-- Besides, the pool is not gone before each worker has started. The code does not
see to that. -/
def Orderly (s : ThreadPool α) (l : Label α) : Prop :=
  s.Allowed l ∧ match l with
    | .owner => s.owner = .notify → ∀ w ∈ s.workers, w ≠ .start
    | _ => True

instance (s : ThreadPool α) : (l : Label α) → Decidable (s.Orderly l)
  | .worker i => inferInstanceAs (Decidable (s.Allowed (.worker i) ∧ True))
  | .spurious i => inferInstanceAs (Decidable (s.Allowed (.spurious i) ∧ True))
  | .execute j task => inferInstanceAs (Decidable (s.Allowed (.execute j task) ∧ True))
  | .caller j woken => inferInstanceAs (Decidable (s.Allowed (.caller j woken) ∧ True))
  | .destroy => inferInstanceAs (Decidable (s.Allowed .destroy ∧ True))
  | .owner =>
      inferInstanceAs (Decidable (s.Allowed .owner ∧ (s.owner = .notify → ∀ w ∈ s.workers, w ≠ .start)))

def Label.own : Label α → Prop
  | .worker _ | .caller _ _ | .owner => True
  | .spurious _ | .execute _ _ | .destroy => False

def rank (s : ThreadPool α) : Nat := 4*s.tasks.length+weigh Worker.rank s.workers

structure Inv (s : ThreadPool α) : Prop where
  order : s.taken ++ s.tasks = s.submitted
  hands : (s.finished ++ s.workers.flatMap Worker.held).Perm s.taken
  holder : weigh Worker.holds s.workers+weigh Caller.holds s.callers+s.owner.holds = if s.mutex then 1 else 0
  coming : 0 < weigh Worker.waits s.workers →
    s.tasks.length ≤ weigh Worker.comes s.workers+weigh Caller.comes s.callers
  left : 0 < weigh Worker.left s.workers → s.tasks = [] ∧ s.stop
  quiet : s.owner ≠ .alive → ∀ c ∈ s.callers, c = .idle
  stopping : s.stop → s.owner = .unlock ∨ s.owner = .notify ∨ s.owner = .gone
  gone : s.owner = .gone → s.stop ∧ weigh Worker.waits s.workers = 0
  notifies : s.owner = .unlock ∨ s.owner = .notify → s.stop

section Steps
variable {s t : ThreadPool α}

theorem Inv.initial (size threads : Nat) : (make size threads : ThreadPool α).Inv := by
  have hweigh : ∀ f : Worker α → Nat, f .start = 0 → weigh f (make size threads).workers = 0 :=
    fun f hf => weigh_zero (fun w hw => List.eq_of_mem_replicate hw ▸ hf)
  have hcallers : ∀ f : Caller α → Nat, f .idle = 0 → weigh f (make size threads).callers = 0 :=
    fun f hf => weigh_zero (fun c hc => List.eq_of_mem_replicate hc ▸ hf)
  have hheld : (make size threads : ThreadPool α).workers.flatMap Worker.held = [] := by
    refine List.flatMap_eq_nil_iff.mpr (fun w hw => ?_)
    rw [List.eq_of_mem_replicate hw]
    rfl
  refine ⟨rfl,?_,?_,fun hpos => ?_,fun hpos => ?_,fun hne => absurd rfl hne,nofun,nofun,nofun⟩
  · rw [hheld]
    exact .refl _
  · rw [hweigh _ rfl,hcallers _ rfl]
    rfl
  · rw [hweigh _ rfl] at hpos
    cases hpos
  · rw [hweigh _ rfl] at hpos
    cases hpos

/-- A worker goes from `w` to `v`; what has to be true of the two. -/
theorem Inv.turn (h : s.Inv) {i : Nat} {w v : Worker α} (hw : s.workers[i]? = some w) {mutex : Bool}
    {tasks taken finished : List α} (horder : taken ++ tasks = s.submitted)
    (hhands : (finished ++ (s.workers.set i v).flatMap Worker.held).Perm taken)
    (hmutex : v.holds+(if s.mutex then 1 else 0) = w.holds+(if mutex then 1 else 0))
    (hcoming : v.waits ≤ w.waits ∧ tasks.length+w.comes ≤ s.tasks.length+v.comes ∨ tasks = [])
    (hleft : v.left ≤ w.left ∧ (s.tasks = [] → tasks = []) ∨ tasks = [] ∧ s.stop)
    (hgone : v.waits ≤ w.waits ∨ s.stop = false) :
    Inv { s.turn i v with mutex, tasks, taken, finished } := by
  have hholds := weigh_set (w := Worker.holds) hw v
  have hwaits := weigh_set (w := Worker.waits) hw v
  have hcomes := weigh_set (w := Worker.comes) hw v
  have hlefts := weigh_set (w := Worker.left) hw v
  have hholder := h.holder
  refine ⟨horder,hhands,?_,fun hpos => ?_,fun hpos => ?_,h.quiet,h.stopping,fun he => ?_,h.notifies⟩
  · change weigh Worker.holds (s.workers.set i v)+weigh Caller.holds s.callers+s.owner.holds = _
    dsimp only
    omega
  · change 0 < weigh Worker.waits (s.workers.set i v) at hpos
    change tasks.length ≤ weigh Worker.comes (s.workers.set i v)+weigh Caller.comes s.callers
    rcases hcoming with ⟨hle,hcoming⟩ | rfl
    · have hold := h.coming (by omega)
      omega
    · exact Nat.zero_le _
  · change 0 < weigh Worker.left (s.workers.set i v) at hpos
    rcases hleft with ⟨hle,htasks⟩ | ⟨htasks,hstop⟩
    · obtain ⟨hempty,hstop⟩ := h.left (by omega)
      exact ⟨htasks hempty,hstop⟩
    · exact ⟨htasks,hstop⟩
  · obtain ⟨hstop,hnone⟩ := h.gone he
    refine ⟨hstop,?_⟩
    change weigh Worker.waits (s.workers.set i v) = 0
    rcases hgone with hle | hnot
    · omega
    · rw [hstop] at hnot
      cases hnot

theorem hands_kept {i : Nat} {w v : Worker α} (hw : s.workers[i]? = some w) (hv : v.held = w.held) :
    ((s.workers.set i v).flatMap Worker.held).Perm (s.workers.flatMap Worker.held) := by
  have hheld := held_set Worker.held hw v
  rw [hv] at hheld
  exact (List.perm_append_right_iff _).mp hheld

/-- A turn of a worker that takes nothing and has finished nothing. -/
theorem Inv.turn_kept (h : s.Inv) {i : Nat} {w v : Worker α} (hw : s.workers[i]? = some w) {mutex : Bool}
    (hv : v.held = w.held) (hmutex : v.holds+(if s.mutex then 1 else 0) = w.holds+(if mutex then 1 else 0))
    (hcoming : v.waits ≤ w.waits ∧ w.comes ≤ v.comes ∨ s.tasks = [])
    (hleft : v.left ≤ w.left ∨ s.tasks = [] ∧ s.stop) (hgone : v.waits ≤ w.waits ∨ s.stop = false) :
    Inv { s.turn i v with mutex } :=
  h.turn hw h.order (((hands_kept hw hv).append_left _).trans h.hands) hmutex
    (hcoming.imp_left (fun ⟨hle,hc⟩ => ⟨hle,Nat.add_le_add_left hc _⟩)) (hleft.imp_left (fun hle => ⟨hle,id⟩)) hgone

theorem Inv.worker_mutex (h : s.Inv) {i : Nat} {w : Worker α} (hw : s.workers[i]? = some w) (hold : 0 < w.holds) :
    s.mutex = true := by
  have hone : w.holds ≤ weigh Worker.holds s.workers := weigh_mem (List.mem_of_getElem? hw)
  have hholder := h.holder
  split at hholder
  · assumption
  · omega

theorem worker_of_step {i : Nat} (hs : s.stepWorker i = some t) : ∃ w, s.workers[i]? = some w := by
  cases hw : s.workers[i]? with
  | none => simp [ThreadPool.stepWorker,hw] at hs
  | some w => exact ⟨w,rfl⟩

theorem Inv.stepWorker (h : s.Inv) {i : Nat} (hs : s.stepWorker i = some t) : t.Inv := by
  obtain ⟨w,hw⟩ := worker_of_step hs
  unfold ThreadPool.stepWorker at hs
  rw [hw] at hs
  cases w with
  | start =>
    dsimp only at hs
    split at hs
    · cases hs
    cases hs
    exact h.turn_kept hw rfl rfl (.inl ⟨Nat.le_refl _,Nat.le_refl _⟩) (.inl (Nat.le_refl _)) (.inl (Nat.le_refl _))
  | lock =>
    dsimp only at hs
    split at hs
    · cases hs
    rename_i hfree
    cases hs
    exact h.turn_kept hw rfl (by simp [hfree,Worker.holds]) (.inl ⟨Nat.le_refl _,Nat.le_refl _⟩)
      (.inl (Nat.le_refl _)) (.inl (Nat.le_refl _))
  | look =>
    have hmutex := h.worker_mutex hw Nat.one_pos
    dsimp only at hs
    split at hs
    · rename_i task tasks htasks
      cases hs
      have hheld : ((s.workers.set i (.unlock task)).flatMap Worker.held).Perm
          (s.workers.flatMap Worker.held ++ [task]) := by
        simpa [Worker.held] using held_set Worker.held hw (.unlock task)
      refine h.turn hw ?_ ?_ rfl (.inl ⟨Nat.le_refl _,?_⟩) (.inl ⟨Nat.le_refl _,fun he => ?_⟩) (.inl (Nat.le_refl _))
      · rw [← h.order,htasks,List.append_assoc]
        rfl
      · have hhands := (hheld.append_left s.finished).trans (.of_eq (List.append_assoc _ _ _).symm)
        exact hhands.trans (h.hands.append_right _)
      · rw [htasks]
        simp [Worker.comes]
      · rw [he] at htasks
        cases htasks
    · rename_i htasks
      split at hs
      · rename_i hstop
        cases hs
        exact h.turn_kept hw rfl rfl (.inr htasks) (.inr ⟨htasks,hstop⟩) (.inl (Nat.le_refl _))
      · rename_i hstop
        cases hs
        exact h.turn_kept hw rfl (by simp [hmutex,Worker.holds]) (.inr htasks) (.inl (Nat.le_refl _))
          (.inr (by simpa using hstop))
  | unlock task =>
    have hmutex := h.worker_mutex hw Nat.one_pos
    cases hs
    exact h.turn_kept hw rfl (by simp [hmutex,Worker.holds]) (.inl ⟨Nat.le_refl _,Nat.le_refl _⟩)
      (.inl (Nat.le_refl _)) (.inl (Nat.le_refl _))
  | run task =>
    cases hs
    have hheld : ([task] ++ (s.workers.set i .lock).flatMap Worker.held).Perm (s.workers.flatMap Worker.held) := by
      have hset := held_set Worker.held hw .lock
      simp only [Worker.held,List.append_nil] at hset
      exact List.perm_append_comm.trans hset
    refine h.turn hw h.order ?_ rfl (.inl ⟨Nat.le_refl _,?_⟩) (.inl ⟨Nat.le_refl _,id⟩) (.inl (Nat.le_refl _))
    · rw [List.append_assoc]
      exact (hheld.append_left _).trans h.hands
    · exact Nat.le_add_right _ _
  | leave =>
    have hmutex := h.worker_mutex hw Nat.one_pos
    cases hs
    exact h.turn_kept hw rfl (by simp [hmutex,Worker.holds]) (.inl ⟨Nat.le_refl _,Nat.le_refl _⟩)
      (.inl (Nat.le_refl _)) (.inl (Nat.le_refl _))
  | wait | done => cases hs

theorem Inv.spurious (h : s.Inv) {i : Nat} (hw : s.workers[i]? = some .wait) : (s.turn i .lock).Inv :=
  h.turn_kept hw rfl rfl (.inl ⟨Nat.zero_le _,Nat.zero_le _⟩) (.inl (Nat.le_refl _)) (.inl (Nat.zero_le _))

theorem Inv.turnCaller (h : s.Inv) {j : Nat} {c d : Caller α} (hc : s.callers[j]? = some c) {mutex : Bool}
    {tasks submitted : List α} (horder : s.taken ++ tasks = submitted)
    (hmutex : d.holds+(if s.mutex then 1 else 0) = c.holds+(if mutex then 1 else 0))
    (hcoming : 0 < weigh Worker.waits s.workers →
      tasks.length+c.comes ≤ weigh Worker.comes s.workers+weigh Caller.comes s.callers+d.comes) (htasks : tasks = s.tasks ∨ s.owner = .alive)
    (halive : d = .idle ∨ s.owner = .alive) :
    Inv { s.turnCaller j d with mutex, tasks, submitted } := by
  have hholds := weigh_set (w := Caller.holds) hc d
  have hcomes := weigh_set (w := Caller.comes) hc d
  have hholder := h.holder
  refine ⟨horder,h.hands,?_,fun hpos => ?_,fun hpos => ?_,fun hne e he => ?_,h.stopping,h.gone,h.notifies⟩
  · change weigh Worker.holds s.workers+weigh Caller.holds (s.callers.set j d)+s.owner.holds = _
    dsimp only
    omega
  · have hall := hcoming hpos
    change tasks.length ≤ weigh Worker.comes s.workers+weigh Caller.comes (s.callers.set j d)
    omega
  · obtain ⟨hempty,hstop⟩ := h.left hpos
    refine ⟨?_,hstop⟩
    rcases htasks with rfl | halive
    · exact hempty
    · have howner := h.stopping hstop
      rw [halive] at howner
      simp at howner
  · change e ∈ s.callers.set j d at he
    rcases List.mem_or_eq_of_mem_set he with he | rfl
    · exact h.quiet hne e he
    · exact halive.resolve_right hne

theorem Inv.caller_mutex (h : s.Inv) {j : Nat} {c : Caller α} (hc : s.callers[j]? = some c) (hold : 0 < c.holds) :
    s.mutex = true := by
  have hone : c.holds ≤ weigh Caller.holds s.callers := weigh_mem (List.mem_of_getElem? hc)
  have hholder := h.holder
  split at hholder
  · assumption
  · omega

theorem Inv.alive (h : s.Inv) {j : Nat} {c : Caller α} (hc : s.callers[j]? = some c) (hne : c ≠ .idle) :
    s.owner = .alive := by
  by_cases ho : s.owner = .alive
  · exact ho
  · exact absurd (h.quiet ho c (List.mem_of_getElem? hc)) hne

theorem caller_of_step {j : Nat} {woken : Option Nat} (hs : s.stepCaller j woken = some t) :
    ∃ c, s.callers[j]? = some c := by
  cases hc : s.callers[j]? with
  | none => simp [ThreadPool.stepCaller,hc] at hs
  | some c => exact ⟨c,rfl⟩

theorem Inv.stepCaller (h : s.Inv) {j : Nat} {woken : Option Nat} (hs : s.stepCaller j woken = some t) : t.Inv := by
  obtain ⟨c,hc⟩ := caller_of_step hs
  unfold ThreadPool.stepCaller at hs
  rw [hc] at hs
  cases c with
  | lock task =>
    dsimp only at hs
    split at hs
    · cases hs
    rename_i hfree
    cases hs
    exact h.turnCaller hc h.order (by simp [hfree,Caller.holds]) h.coming (.inl rfl) (.inr (h.alive hc (by simp)))
  | emplace task =>
    cases hs
    have halive := h.alive hc (by simp)
    refine h.turnCaller hc ?_ rfl (fun hpos => ?_) (.inr halive) (.inr halive)
    · rw [← h.order,List.append_assoc]
    · have hold := h.coming hpos
      rw [List.length_append]
      exact Nat.add_le_add_right hold 1
  | unlock =>
    have hmutex := h.caller_mutex hc Nat.one_pos
    cases hs
    exact h.turnCaller hc h.order (by simp [hmutex,Caller.holds])
      (fun hpos => Nat.add_le_add_right (h.coming hpos) 1) (.inl rfl) (.inr (h.alive hc (by simp)))
  | notify =>
    dsimp only at hs
    split at hs
    · rename_i i
      split at hs
      · rename_i hw
        cases hs
        have hturn : (s.turn i .lock).Inv := h.spurious hw
        refine hturn.turnCaller hc h.order rfl (fun _ => ?_) (.inl rfl) (.inl rfl)
        -- the one that was woken comes instead of the notification
        have hwaits : 0 < weigh Worker.waits s.workers :=
          Nat.lt_of_lt_of_le Nat.one_pos (weigh_mem (w := Worker.waits) (List.mem_of_getElem? hw))
        have hcomes : weigh Worker.comes (s.workers.set i .lock)+0 = weigh Worker.comes s.workers+1 :=
          weigh_set hw .lock
        have hold := h.coming hwaits
        change s.tasks.length+1 ≤ weigh Worker.comes (s.workers.set i .lock)+weigh Caller.comes s.callers+0
        omega
      · cases hs
    · split at hs
      · rename_i hnone
        cases hs
        exact h.turnCaller hc h.order rfl (fun hpos => absurd hnone (Nat.ne_of_gt hpos)) (.inl rfl) (.inl rfl)
      · cases hs
  | idle => cases hs

theorem weigh_wake (f : Worker α → Nat) (hf : f .lock = f .wait) (l : List (Worker α)) :
    weigh f (l.map Worker.wake) = weigh f l :=
  weigh_map _ (fun w => by cases w <;> first | rfl | exact hf)

theorem Inv.stepOwner (h : s.Inv) (hs : s.stepOwner = some t) : t.Inv := by
  have hholder := h.holder
  unfold ThreadPool.stepOwner at hs
  cases ho : s.owner with
  | lock =>
    rw [ho] at hs hholder
    dsimp only at hs
    split at hs
    · cases hs
    rename_i hfree
    cases hs
    refine ⟨h.order,h.hands,?_,h.coming,h.left,fun _ => h.quiet (by simp [ho]),fun hstop => ?_,nofun,nofun⟩
    · simpa [hfree,Owner.holds] using hholder
    · have howner := h.stopping hstop
      simp [ho] at howner
  | stop =>
    rw [ho] at hs hholder
    cases hs
    refine ⟨h.order,h.hands,?_,h.coming,fun hpos => ⟨(h.left hpos).1,rfl⟩,fun _ => h.quiet (by simp [ho]),
      fun _ => .inl rfl,nofun,fun _ => rfl⟩
    exact hholder
  | unlock =>
    rw [ho] at hs hholder
    cases hs
    have hstop := h.notifies (.inl ho)
    refine ⟨h.order,h.hands,?_,h.coming,h.left,fun _ => h.quiet (by simp [ho]),fun _ => .inr (.inl rfl),nofun,fun _ => hstop⟩
    change _+_+1 = _ at hholder
    change weigh Worker.holds s.workers+weigh Caller.holds s.callers+0 = 0
    split at hholder <;> omega
  | notify =>
    rw [ho] at hs hholder
    cases hs
    have hstop := h.notifies (.inr ho)
    have hholds := weigh_wake Worker.holds rfl s.workers
    have hleft := weigh_wake Worker.left rfl s.workers
    have hheld : (s.workers.map Worker.wake).flatMap Worker.held = s.workers.flatMap Worker.held := by
      rw [List.flatMap_map]
      refine List.flatMap_congr (fun w _ => ?_)
      cases w <;> rfl
    have hnone : weigh Worker.waits (s.workers.map Worker.wake) = 0 := by
      refine weigh_zero (fun w hw => ?_)
      obtain ⟨v,_,rfl⟩ := List.mem_map.mp hw
      cases v <;> rfl
    refine ⟨h.order,?_,?_,fun hpos => absurd hnone (Nat.ne_of_gt hpos),fun hpos => h.left (hleft ▸ hpos),
      fun _ => h.quiet (by simp [ho]),fun _ => .inr (.inr rfl),fun _ => ⟨hstop,hnone⟩,nofun⟩
    · change (s.finished ++ (s.workers.map Worker.wake).flatMap Worker.held).Perm s.taken
      rw [hheld]
      exact h.hands
    · change weigh Worker.holds (s.workers.map Worker.wake)+_+_ = _
      rw [hholds]
      exact hholder
  | alive | gone =>
    rw [ho] at hs
    cases hs

theorem Inv.step (h : s.Inv) {l : Label α} (hl : s.Allowed l) (hs : s.step l = some t) : t.Inv := by
  cases l with
  | worker i => exact h.stepWorker hs
  | spurious i =>
    simp only [ThreadPool.step] at hs
    split at hs
    · rename_i hw
      cases hs
      exact h.spurious hw
    · cases hs
  | execute j task =>
    simp only [ThreadPool.step] at hs
    split at hs
    · rename_i hc
      cases hs
      exact h.turnCaller hc h.order rfl h.coming (.inl rfl) (.inr hl)
    · cases hs
  | caller j woken => exact h.stepCaller hs
  | destroy =>
    simp only [ThreadPool.step] at hs
    split at hs
    · rename_i ho
      cases hs
      have hholder := h.holder
      refine ⟨h.order,h.hands,?_,h.coming,h.left,fun _ => hl,fun hstop => ?_,nofun,nofun⟩
      · rw [ho] at hholder
        exact hholder
      · have howner := h.stopping hstop
        simp [ho] at howner
    · cases hs
  | owner => exact h.stepOwner hs

theorem Inv.reached {size threads : Nat} (h : Path ThreadPool.step Allowed (make size threads) s) : s.Inv :=
  h.keeps (fun _ _ _ hl hs hu => hu.step hl hs) (.initial size threads)

/-- Each task is in one place: in the queue, with the worker that took it, or among those
that have ended. They are taken in the order in which they came, one thread at a time has
the mutex, and for each task in the queue there is a worker or a notification on its way
as long as a worker waits. -/
theorem tasks_conserved {size threads : Nat} (h : Path ThreadPool.step Allowed (make size threads) s) :
    s.taken ++ s.tasks = s.submitted ∧ (s.finished ++ s.workers.flatMap Worker.held).Perm s.taken ∧
    weigh Worker.holds s.workers+weigh Caller.holds s.callers+s.owner.holds ≤ 1 ∧
    (0 < weigh Worker.waits s.workers → s.tasks.length ≤ weigh Worker.comes s.workers+weigh Caller.comes s.callers) := by
  have hinv := Inv.reached h
  refine ⟨hinv.order,hinv.hands,?_,hinv.coming⟩
  rw [hinv.holder]
  split <;> decide

/-- One worker waits when a task is there already, and its notification is on its way. -/
theorem tasks_conserved_notified : ∃ s : ThreadPool Nat, 0 < weigh Worker.waits s.workers ∧ s.tasks = [7] ∧
    s.taken ++ s.tasks = s.submitted ∧ s.tasks.length ≤ weigh Worker.comes s.workers+weigh Caller.comes s.callers := by
  have hrun : run ThreadPool.step Allowed (make 1 1) [.worker 0,.worker 0,.worker 0,.execute 0 7,.caller 0 none,
      .caller 0 none] = some ⟨true,false,[7],[.wait],[.unlock],.alive,[7],[],[]⟩ := rfl
  obtain ⟨horder,_,_,hcoming⟩ := tasks_conserved (run_path hrun)
  have hwaits : 0 < weigh Worker.waits [(.wait : Worker Nat)] := Nat.one_pos
  exact ⟨_,hwaits,rfl,horder,hcoming hwaits⟩

end Steps

section Drains
variable {s t : ThreadPool α}

/-- `Inv`, and the workers have started in time; there is one at least. -/
structure Served (s : ThreadPool α) : Prop where
  inv : s.Inv
  size : s.workers ≠ []
  started : s.owner = .gone → ∀ w ∈ s.workers, w ≠ .start

theorem turn_starts {ws : List (Worker α)} {i : Nat} {v : Worker α} (h : ∀ w ∈ ws, w ≠ .start) (hv : v ≠ .start) :
    ∀ w ∈ ws.set i v, w ≠ .start := by
  intro w hw
  rcases List.mem_or_eq_of_mem_set hw with hin | rfl
  · exact h w hin
  · exact hv

theorem Served.worker_goes (h : s.Served) {i : Nat} {w : Worker α} (hw : s.workers[i]? = some w)
    (hout : w ≠ .wait ∧ w ≠ .done) (hfree : s.mutex = false ∨ 0 < w.holds) : (s.stepWorker i).isSome := by
  unfold ThreadPool.stepWorker
  rw [hw]
  cases w with
  | start =>
    have hpool : s.owner ≠ .gone := fun he => h.started he _ (List.mem_of_getElem? hw) rfl
    simp [hpool]
  | lock =>
    have hmutex : s.mutex = false := hfree.resolve_right (Nat.lt_irrefl 0)
    simp [hmutex]
  | look =>
    dsimp only
    split
    · rfl
    · split <;> rfl
  | unlock task | run task | leave => rfl
  | wait => exact absurd rfl hout.1
  | done => exact absurd rfl hout.2

theorem caller_goes {j : Nat} {c : Caller α} (hc : s.callers[j]? = some c) (hout : c ≠ .idle)
    (hfree : s.mutex = false ∨ 0 < c.holds) : ∃ woken, (s.stepCaller j woken).isSome := by
  unfold ThreadPool.stepCaller
  rw [hc]
  cases c with
  | idle => exact absurd rfl hout
  | lock task =>
    have hmutex : s.mutex = false := hfree.resolve_right (Nat.lt_irrefl 0)
    exact ⟨none,by simp [hmutex]⟩
  | emplace task | unlock => exact ⟨none,rfl⟩
  | notify =>
    by_cases hnone : weigh Worker.waits s.workers = 0
    · exact ⟨none,by simp [hnone]⟩
    · obtain ⟨i,w,hw,hwaits⟩ := weigh_pos (Nat.pos_of_ne_zero hnone)
      have hwait : w = .wait := by
        cases w with
        | wait => rfl
        | _ => cases hwaits
      subst hwait
      exact ⟨some i,by simp [hw]⟩

theorem owner_goes (hout : s.owner ≠ .alive ∧ s.owner ≠ .gone) (hfree : s.mutex = false ∨ 0 < s.owner.holds) :
    s.stepOwner.isSome := by
  unfold ThreadPool.stepOwner
  cases ho : s.owner with
  | lock =>
    rw [ho] at hfree
    have hmutex : s.mutex = false := hfree.resolve_right (Nat.lt_irrefl 0)
    simp [hmutex]
  | stop | unlock | notify => rfl
  | alive => exact absurd ho hout.1
  | gone => exact absurd ho hout.2

/-- Whose turn it is: the one that has the mutex; where nobody has it, whoever is not out
of its code. -/
theorem Served.goes_on (h : s.Served) :
    (∃ l : Label α, l.own ∧ s.Allowed l ∧ (s.step l).isSome) ∨
    ((∀ c ∈ s.callers, c = .idle) ∧ (s.owner = .alive ∨ s.owner = .gone) ∧ ∀ w ∈ s.workers, w = .wait ∨ w = .done) := by
  have hholder := h.inv.holder
  cases hmutex : s.mutex with
  | true =>
    rw [hmutex,if_pos rfl] at hholder
    refine .inl ?_
    by_cases hworkers : 0 < weigh Worker.holds s.workers
    · obtain ⟨i,w,hw,hholds⟩ := weigh_pos hworkers
      have hout : w ≠ .wait ∧ w ≠ .done := by
        constructor <;> rintro rfl <;> cases hholds
      exact ⟨.worker i,trivial,trivial,h.worker_goes hw hout (.inr hholds)⟩
    by_cases hcallers : 0 < weigh Caller.holds s.callers
    · obtain ⟨j,c,hc,hholds⟩ := weigh_pos hcallers
      have hout : c ≠ .idle := by
        rintro rfl
        cases hholds
      obtain ⟨woken,hsome⟩ := caller_goes hc hout (.inr hholds)
      exact ⟨.caller j woken,trivial,trivial,hsome⟩
    · have hholds : 0 < s.owner.holds := by omega
      have hout : s.owner ≠ .alive ∧ s.owner ≠ .gone := by
        constructor <;> intro he <;> rw [he] at hholds <;> cases hholds
      exact ⟨.owner,trivial,trivial,owner_goes hout (.inr hholds)⟩
  | false =>
    by_cases hworkers : ∀ w ∈ s.workers, w = .wait ∨ w = .done
    · by_cases hcallers : ∀ c ∈ s.callers, c = .idle
      · by_cases howner : s.owner = .alive ∨ s.owner = .gone
        · exact .inr ⟨hcallers,howner,hworkers⟩
        · exact .inl ⟨.owner,trivial,trivial,owner_goes (not_or.mp howner) (.inl hmutex)⟩
      · simp only [not_forall] at hcallers
        obtain ⟨c,hin,hout⟩ := hcallers
        obtain ⟨j,hc⟩ := List.getElem?_of_mem hin
        obtain ⟨woken,hsome⟩ := caller_goes hc hout (.inl hmutex)
        exact .inl ⟨.caller j woken,trivial,trivial,hsome⟩
    · simp only [not_forall,not_or] at hworkers
      obtain ⟨w,hin,hout⟩ := hworkers
      obtain ⟨i,hw⟩ := List.getElem?_of_mem hin
      exact .inl ⟨.worker i,trivial,trivial,h.worker_goes hw hout (.inl hmutex)⟩

theorem Served.goes_orderly (h : s.Served) :
    (∃ l : Label α, l.own ∧ s.Orderly l ∧ (s.step l).isSome) ∨
    ((∀ c ∈ s.callers, c = .idle) ∧ (s.owner = .alive ∨ s.owner = .gone) ∧ ∀ w ∈ s.workers, w = .wait ∨ w = .done) := by
  by_cases hfirst : ∀ w ∈ s.workers, w ≠ .start
  · refine h.goes_on.imp_left (fun ⟨l,hown,hl,hsome⟩ => ⟨l,hown,⟨hl,?_⟩,hsome⟩)
    split
    · exact fun _ => hfirst
    · trivial
  · -- one that has not started can do that first
    simp only [not_forall,not_not] at hfirst
    obtain ⟨w,hin,rfl⟩ := hfirst
    obtain ⟨i,hw⟩ := List.getElem?_of_mem hin
    have hpool : s.owner ≠ .gone := fun he => h.started he _ hin rfl
    refine .inl ⟨.worker i,trivial,⟨trivial,trivial⟩,?_⟩
    simp [ThreadPool.step,ThreadPool.stepWorker,hw,hpool]

theorem Served.serves (h : s.Served) (htasks : s.tasks ≠ []) : ∃ l : Label α, l.own ∧ s.Orderly l ∧ (s.step l).isSome := by
  refine h.goes_orderly.resolve_right (fun ⟨hcallers,howner,hworkers⟩ => ?_)
  obtain ⟨w,hin⟩ := List.exists_mem_of_ne_nil _ h.size
  have hpos : 0 < s.tasks.length := List.length_pos_iff.mpr htasks
  rcases hworkers w hin with rfl | rfl
  · have hwaits : 0 < weigh Worker.waits s.workers := Nat.lt_of_lt_of_le Nat.one_pos (weigh_mem (w := Worker.waits) hin)
    have hcoming := h.inv.coming hwaits
    have hnone : weigh Worker.comes s.workers = 0 :=
      weigh_zero (fun w hw => by rcases hworkers w hw with rfl | rfl <;> rfl)
    have hnone' : weigh Caller.comes s.callers = 0 :=
      weigh_zero (fun c hc => by rw [hcallers c hc]; rfl)
    omega
  · have hleft : 0 < weigh Worker.left s.workers := Nat.lt_of_lt_of_le Nat.one_pos (weigh_mem (w := Worker.left) hin)
    exact htasks (h.inv.left hleft).1

theorem step_workers {l : Label α} (hs : s.step l = some t) :
    (t.workers = s.workers ∨ (∃ (i : Nat) (v : Worker α), v ≠ .start ∧ t.workers = s.workers.set i v) ∨
      t.workers = s.workers.map Worker.wake) ∧
    (t.owner = .gone → s.owner = .gone ∨ (l = .owner ∧ s.owner = .notify)) := by
  cases l with
  | worker i =>
    obtain ⟨w,hw⟩ := worker_of_step hs
    simp only [ThreadPool.step,ThreadPool.stepWorker,hw] at hs
    cases w with
    | start | lock =>
      dsimp only at hs
      split at hs
      · cases hs
      cases hs
      refine ⟨.inr (.inl ⟨i,_,?_,rfl⟩),.inl⟩
      exact nofun
    | look =>
      dsimp only at hs
      split at hs
      · cases hs
        refine ⟨.inr (.inl ⟨i,_,?_,rfl⟩),.inl⟩
        exact nofun
      · split at hs
        all_goals
          cases hs
          refine ⟨.inr (.inl ⟨i,_,?_,rfl⟩),.inl⟩
          exact nofun
    | unlock | run | leave =>
      cases hs
      refine ⟨.inr (.inl ⟨i,_,?_,rfl⟩),.inl⟩
      exact nofun
    | wait | done => cases hs
  | spurious i =>
    simp only [ThreadPool.step] at hs
    split at hs
    · cases hs
      refine ⟨.inr (.inl ⟨i,_,?_,rfl⟩),.inl⟩
      exact nofun
    · cases hs
  | execute j task =>
    simp only [ThreadPool.step] at hs
    split at hs
    · cases hs
      exact ⟨.inl rfl,.inl⟩
    · cases hs
  | caller j woken =>
    obtain ⟨c,hc⟩ := caller_of_step hs
    simp only [ThreadPool.step,ThreadPool.stepCaller,hc] at hs
    cases c with
    | lock =>
      dsimp only at hs
      split at hs
      · cases hs
      cases hs
      exact ⟨.inl rfl,.inl⟩
    | emplace | unlock =>
      cases hs
      exact ⟨.inl rfl,.inl⟩
    | notify =>
      dsimp only at hs
      split at hs
      · rename_i i
        split at hs
        · cases hs
          refine ⟨.inr (.inl ⟨i,.lock,?_,rfl⟩),.inl⟩
          exact nofun
        · cases hs
      · split at hs
        · cases hs
          exact ⟨.inl rfl,.inl⟩
        · cases hs
    | idle => cases hs
  | destroy =>
    simp only [ThreadPool.step] at hs
    split at hs
    · cases hs
      exact ⟨.inl rfl,nofun⟩
    · cases hs
  | owner =>
    simp only [ThreadPool.step,ThreadPool.stepOwner] at hs
    cases ho : s.owner with
    | lock =>
      rw [ho] at hs
      dsimp only at hs
      split at hs
      · cases hs
      cases hs
      exact ⟨.inl rfl,nofun⟩
    | stop | unlock =>
      rw [ho] at hs
      cases hs
      exact ⟨.inl rfl,nofun⟩
    | notify =>
      rw [ho] at hs
      cases hs
      exact ⟨.inr (.inr rfl),fun _ => .inr ⟨rfl,rfl⟩⟩
    | alive | gone =>
      rw [ho] at hs
      cases hs

theorem Served.step (h : s.Served) {l : Label α} (hl : s.Orderly l) (hs : s.step l = some t) : t.Served := by
  obtain ⟨hworkers,howner⟩ := step_workers hs
  refine ⟨h.inv.step hl.1 hs,?_,fun hgone => ?_⟩
  · have hlength : t.workers.length = s.workers.length := by
      rcases hworkers with he | ⟨i,v,_,he⟩ | he <;> simp [he]
    have hpos := List.length_pos_iff.mpr h.size
    exact List.length_pos_iff.mp (hlength ▸ hpos)
  · have hfirst : ∀ w ∈ s.workers, w ≠ .start := by
      rcases howner hgone with hgone | ⟨rfl,hnotify⟩
      · exact h.started hgone
      · exact hl.2 hnotify
    rcases hworkers with he | ⟨i,v,hv,he⟩ | he
    · exact he ▸ hfirst
    · exact he ▸ turn_starts hfirst hv
    · rw [he]
      intro w hw
      obtain ⟨v,hin,rfl⟩ := List.mem_map.mp hw
      have hv := hfirst v hin
      cases v with
      | start => exact absurd rfl hv
      | _ => exact nofun

theorem Served.gone_worker (h : s.Served) (hgone : s.owner = .gone) {l : Label α} (hl : s.Orderly l)
    (hs : s.step l = some t) : ∃ i, l = .worker i := by
  obtain ⟨_,hnone⟩ := h.inv.gone hgone
  have hquiet := h.inv.quiet (by simp [hgone])
  cases l with
  | worker i => exact ⟨i,rfl⟩
  | spurious i =>
    simp only [ThreadPool.step] at hs
    split at hs
    · rename_i hw
      have hle : Worker.waits .wait ≤ weigh Worker.waits s.workers := weigh_mem (List.mem_of_getElem? hw)
      rw [hnone] at hle
      cases hle
    · cases hs
  | execute j task =>
    have halive : s.owner = .alive := hl.1
    rw [hgone] at halive
    cases halive
  | caller j woken =>
    simp only [ThreadPool.step,ThreadPool.stepCaller] at hs
    cases hc : s.callers[j]? with
    | none => simp [hc] at hs
    | some c =>
      rw [hquiet c (List.mem_of_getElem? hc)] at hc
      simp [hc] at hs
  | destroy => simp [ThreadPool.step,hgone] at hs
  | owner => simp [ThreadPool.step,ThreadPool.stepOwner,hgone] at hs

theorem Served.rank_step (h : s.Served) (hgone : s.owner = .gone) {l : Label α} (hl : s.Orderly l)
    (hs : s.step l = some t) : t.rank+1 = s.rank ∧ t.owner = .gone ∧ t.submitted = s.submitted := by
  obtain ⟨hstop,_⟩ := h.inv.gone hgone
  obtain ⟨i,rfl⟩ := h.gone_worker hgone hl hs
  have hrank : ∀ w v : Worker α, s.workers[i]? = some w →
      weigh Worker.rank (s.workers.set i v)+w.rank = weigh Worker.rank s.workers+v.rank :=
    fun w v hw => weigh_set hw v
  obtain ⟨w,hw⟩ := worker_of_step hs
  simp only [ThreadPool.step,ThreadPool.stepWorker,hw] at hs
  cases w with
  | start => simp [hgone] at hs
  | lock =>
    dsimp only at hs
    split at hs
    · cases hs
    cases hs
    have hturn := hrank _ .look hw
    refine ⟨?_,hgone,rfl⟩
    simp only [rank,turn,Worker.rank] at *
    omega
  | look =>
    dsimp only at hs
    split at hs
    · rename_i task tasks htasks
      cases hs
      have hturn := hrank _ (.unlock task) hw
      refine ⟨?_,hgone,rfl⟩
      simp only [rank,turn,Worker.rank,htasks,List.length_cons] at *
      omega
    · rw [if_pos hstop] at hs
      cases hs
      have hturn := hrank _ .leave hw
      refine ⟨?_,hgone,rfl⟩
      simp only [rank,turn,Worker.rank] at *
      omega
  | unlock task =>
    cases hs
    have hturn := hrank _ (.run task) hw
    refine ⟨?_,hgone,rfl⟩
    simp only [rank,turn,Worker.rank] at *
    omega
  | run task =>
    cases hs
    have hturn := hrank _ .lock hw
    refine ⟨?_,hgone,rfl⟩
    simp only [rank,turn,Worker.rank] at *
    omega
  | leave =>
    cases hs
    have hturn := hrank _ .done hw
    refine ⟨?_,hgone,rfl⟩
    simp only [rank,turn,Worker.rank] at *
    omega
  | wait | done => cases hs

theorem Served.rank_run (h : s.Served) (hgone : s.owner = .gone) {ls : List (Label α)}
    (hs : run ThreadPool.step Orderly s ls = some t) :
    t.rank+ls.length = s.rank ∧ t.owner = .gone ∧ t.submitted = s.submitted ∧ t.Served := by
  induction ls generalizing s with
  | nil =>
    cases hs
    exact ⟨rfl,hgone,rfl,h⟩
  | cons l ls ih =>
    simp only [run] at hs
    split at hs
    · rename_i hl
      obtain ⟨u,hu,ht⟩ := Option.bind_eq_some_iff.mp hs
      obtain ⟨hrank,hgone',hsubmitted⟩ := h.rank_step hgone hl hu
      obtain ⟨hmore,hgone'',hsubmitted',hserved⟩ := ih (h.step hl hu) hgone' ht
      exact ⟨by rw [List.length_cons]; omega,hgone'',hsubmitted'.trans hsubmitted,hserved⟩
    · cases hs

theorem Served.reached {size threads : Nat} (hsize : 0 < size)
    (h : Path ThreadPool.step Orderly (make size threads) s) : s.Served := by
  refine h.keeps (fun _ _ _ hl hs hu => hu.step hl hs) ⟨.initial size threads,?_,nofun⟩
  exact List.ne_nil_of_length_pos (by simpa [make] using hsize)

theorem Served.ended (h : s.Served) (hdone : ∀ w ∈ s.workers, w = .done) :
    s.tasks = [] ∧ s.finished.Perm s.submitted := by
  obtain ⟨w,hin⟩ := List.exists_mem_of_ne_nil _ h.size
  have hleft : 0 < weigh Worker.left s.workers :=
    Nat.lt_of_lt_of_le (show 0 < w.left by rw [hdone w hin]; exact Nat.one_pos) (weigh_mem hin)
  obtain ⟨hempty,_⟩ := h.inv.left hleft
  refine ⟨hempty,?_⟩
  have hheld : s.workers.flatMap Worker.held = [] :=
    List.flatMap_eq_nil_iff.mpr (fun w hin => by rw [hdone w hin]; rfl)
  have hhands := h.inv.hands
  have horder := h.inv.order
  rw [hheld,List.append_nil] at hhands
  rw [hempty,List.append_nil] at horder
  exact horder ▸ hhands

/-- While there are tasks, somebody goes on. Once the pool is gone its workers make as
many steps as there are left, whatever the order; then they are out of `run`, the queue is
empty, and what was submitted has ended. -/
theorem pool_drains {size threads : Nat} (hsize : 0 < size)
    (h : Path ThreadPool.step Orderly (make size threads) s) :
    (s.tasks ≠ [] → ∃ l : Label α, l.own ∧ s.Orderly l ∧ (s.step l).isSome) ∧
    (s.owner = .gone → ∀ ls t, run ThreadPool.step Orderly s ls = some t →
      ls.length ≤ s.rank ∧
      (ls.length < s.rank → ∃ i, (t.step (.worker i)).isSome) ∧
      (ls.length = s.rank → (∀ w ∈ t.workers, w = .done) ∧ t.tasks = [] ∧ t.finished.Perm s.submitted)) := by
  have hserved := Served.reached hsize h
  refine ⟨hserved.serves,fun hgone ls t hs => ?_⟩
  obtain ⟨hrank,hgone',hsubmitted,ht⟩ := hserved.rank_run hgone hs
  have hnowait : ∀ w ∈ t.workers, w ≠ .wait := by
    rintro w hin rfl
    have hle : Worker.waits .wait ≤ weigh Worker.waits t.workers := weigh_mem hin
    rw [(ht.inv.gone hgone').2] at hle
    cases hle
  refine ⟨by omega,fun hlt => ?_,fun heq => ?_⟩
  · rcases ht.goes_orderly with ⟨l,_,hl,hsome⟩ | ⟨_,_,hout⟩
    · obtain ⟨u,hu⟩ := Option.isSome_iff_exists.mp hsome
      obtain ⟨i,rfl⟩ := ht.gone_worker hgone' hl hu
      exact ⟨i,hsome⟩
    · have hdone : ∀ w ∈ t.workers, w = .done := fun w hin => (hout w hin).resolve_left (hnowait w hin)
      have hzero : weigh Worker.rank t.workers = 0 := weigh_zero (fun w hin => by rw [hdone w hin]; rfl)
      have hnone : t.rank = 0 := by rw [rank,hzero,(ht.ended hdone).1]; rfl
      omega
  · have hdone : ∀ w ∈ t.workers, w = .done := by
      intro w hin
      have hle : w.rank ≤ weigh Worker.rank t.workers := weigh_mem hin
      have hnone : t.rank = 0 := by omega
      have hzero : w.rank = 0 := by
        unfold rank at hnone
        omega
      cases w with
      | done => rfl
      | wait => exact absurd rfl (hnowait _ hin)
      | _ => cases hzero
    obtain ⟨hempty,hfinished⟩ := ht.ended hdone
    exact ⟨hdone,hempty,hsubmitted ▸ hfinished⟩

/-- Two workers, two tasks, and a destructor that comes while the first of them runs. -/
theorem pool_drains_two : ∃ s : ThreadPool Nat, s.owner = .gone ∧ s.tasks = [8] ∧
    ∀ ls t, run ThreadPool.step Orderly s ls = some t → ls.length = 11 → t.finished.Perm [7,8] := by
  have hrun : run ThreadPool.step Orderly (make 2 1) ([.worker 0,.worker 1,.worker 0,.worker 0] ++
      [.execute 0 7,.caller 0 none,.caller 0 none,.caller 0 none,.caller 0 (some 0)] ++
      [.worker 0,.worker 0,.worker 0] ++
      [.execute 0 8,.caller 0 none,.caller 0 none,.caller 0 none,.caller 0 none] ++
      [.destroy,.owner,.owner,.owner,.owner]) =
      some ⟨false,true,[8],[.run 7,.lock],[.idle],.gone,[7,8],[7],[]⟩ := rfl
  exact ⟨_,rfl,rfl,fun ls t ht hlength => ((pool_drains (by decide) (run_path hrun)).2 rfl ls t ht).2.2 hlength |>.2.2⟩

end Drains

end ThreadPool

end FluentNet
