import FluentNet.Coroutine.Environment
import Mathlib.Data.Nat.Bitwise
set_option autoImplicit false

/-!
The message queue behind the futures. A pass resumes what was queued when it began;
a task may post, and may run the looper itself, before it yields or returns.
-/

namespace FluentNet
open Runs Coroutines

inductive PassCall where
  | loopOnce | loopOnceUnchecked
  deriving DecidableEq, Repr

/-- `loopOnceUnchecked` while `co` runs, and the calls that its caller makes after it. -/
structure Pass where
  co : Nat
  rest : List PassCall
  deriving DecidableEq, Repr

/-- The same pass when every call of it is a `loopOnce`. -/
def Pass.checked (p : Pass) : Pass := { p with rest := p.rest.map (fun _ => .loopOnce) }

structure Looper where
  env : Environment
  mq : List Nat
  /-- the passes that are under way, the innermost first -/
  passes : List Pass
  /-- what the passes have resumed, in order -/
  resumed : List Nat

namespace Looper

def init : Looper := ⟨.init,[],[],[]⟩

section Unrolling

def CATURRA_2X (action : List PassCall) : List PassCall := action ++ action
def CATURRA_4X (action : List PassCall) : List PassCall := CATURRA_2X action ++ CATURRA_2X action

def unroll (actionx1 actionx2 actionx4 : List PassCall) (width : Nat) : List PassCall :=
  (List.replicate (width >>> 2) actionx4).flatten ++
    (if width &&& 2 ≠ 0 then actionx2 else []) ++
    (if width &&& 1 ≠ 0 then actionx1 else [])

def unroll4x (n : Nat) : List PassCall :=
  unroll [.loopOnceUnchecked] (CATURRA_2X [.loopOnceUnchecked]) (CATURRA_4X [.loopOnceUnchecked]) n

/-- The reference: `loopOnce` as many times. -/
def loopOnces (n : Nat) : List PassCall := List.replicate n .loopOnce

theorem unroll_length {actionx1 actionx2 actionx4 : List PassCall} (h1 : actionx1.length = 1)
    (h2 : actionx2.length = 2) (h4 : actionx4.length = 4) (width : Nat) :
    (unroll actionx1 actionx2 actionx4 width).length = width := by
  have h1bit : width &&& 1 ≠ 0 ↔ width%2 = 1 := by
    rw [Nat.and_one_is_mod]
    omega
  have h2bit : width &&& 2 ≠ 0 ↔ width/2%2 = 1 := by
    have hbit : 2^1 &&& width = 2^1*(width.testBit 1).toNat := Nat.two_pow_and width 1
    rw [Nat.and_comm,Nat.testBit_eq_decide_div_mod_eq,Nat.pow_one] at hbit
    rw [hbit]
    by_cases h : width/2%2 = 1 <;> simp [h]
  have hlow : (if width &&& 2 ≠ 0 then actionx2 else []).length = 2*(width/2%2) := by
    by_cases h : width/2%2 = 1
    · rw [if_pos (h2bit.mpr h),h2,h]
    · rw [if_neg (mt h2bit.mp h),List.length_nil]
      omega
  have hlast : (if width &&& 1 ≠ 0 then actionx1 else []).length = width%2 := by
    by_cases h : width%2 = 1
    · rw [if_pos (h1bit.mpr h),h1,h]
    · rw [if_neg (mt h1bit.mp h),List.length_nil]
      omega
  have hhigh : (List.replicate (width >>> 2) actionx4).flatten.length = 4*(width/4) := by
    rw [List.length_flatten,List.map_replicate,List.sum_replicate_nat,h4,Nat.shiftRight_eq_div_pow]
    omega
  rw [unroll,List.length_append,List.length_append,hlow,hlast,hhigh]
  omega

/-- The unrolled loop makes exactly `n` unchecked calls. -/
theorem unroll4x_eq (n : Nat) : unroll4x n = List.replicate n .loopOnceUnchecked := by
  refine List.eq_replicate_iff.mpr ⟨unroll_length rfl rfl rfl n,fun call hcall => ?_⟩
  simp only [unroll4x,unroll,CATURRA_4X,CATURRA_2X,List.mem_append,List.mem_flatten] at hcall
  rcases hcall with (⟨l,hl,hcall⟩ | hcall) | hcall
  · rw [List.eq_of_mem_replicate hl] at hcall
    simpa using hcall
  · split at hcall <;> simp_all
  · split at hcall <;> simp_all

end Unrolling

def running (s : Looper) (co : Nat) : Bool :=
  (s.env.coroutines co).any (fun c => decide c.running)

def requeue (s : Looper) (co : Nat) : Looper :=
  if s.running co then { s with mq := s.mq ++ [co] }
  else { s with env := s.env.setCoroutine co none }

/-- The calls of a pass, up to where a coroutine runs. `resume` comes back at once
from one that has returned. To take from an empty queue is undefined. -/
def advance : List PassCall → Looper → Option Looper
  | [],s => some s
  | call :: rest,s =>
      match s.mq with
      | [] =>
          match call with
          | .loopOnce => advance rest s
          | .loopOnceUnchecked => none
      | co :: mq => do
          let env ← s.env.resume co
          let s := { s with env, mq, resumed := s.resumed ++ [co] }
          if env.control = co then some { s with passes := ⟨co,rest⟩ :: s.passes }
          else advance rest (s.requeue co)

/-- What the running code does next. Between passes it is the code that drives the
looper, else a task. -/
inductive Label where
  | post | loop | loopOnce | yield
  /-- the entry of the task returns -/
  | finish
  deriving DecidableEq, Repr

def back (env : Option Environment) (s : Looper) : Option Looper :=
  match s.passes with
  | [] => none
  | p :: passes => do
      let env ← env
      advance p.rest (requeue { s with env, passes } p.co)

/-- `body` is what `loop` calls, given the size of the queue. -/
def step (body : Nat → List PassCall) (s : Looper) : Label → Option Looper
  | .post => some { s with env := s.env.createCoroutine, mq := s.mq ++ [s.env.created] }
  | .loop => advance (body s.mq.length) s
  | .loopOnce => advance [.loopOnce] s
  | .yield => s.back s.env.yield
  | .finish => s.back s.env.exit

structure Wf (s : Looper) : Prop where
  env : s.env.Inv
  stack : s.env.cStack = s.passes.map Pass.co ++ [main]
  nodup : s.mq.Nodup
  waiting : ∀ c ∈ s.mq, c ∉ s.env.cStack ∧ ∃ co, s.env.coroutines c = some co ∧ ¬co.exit

section Steps
variable {s t : Looper} {body : Nat → List PassCall}

theorem init_wf : init.Wf := ⟨Environment.Inv.initial,rfl,List.nodup_nil,by simp [init]⟩

theorem advance_resumed {c : Nat} {mq : List Nat} {env : Environment} (hq : s.mq = c :: mq)
    (hr : s.env.resume c = some env) (hc : env.control = c) (call : PassCall) (rest : List PassCall) :
    advance (call :: rest) s = some { s with
      env, mq, passes := ⟨c,rest⟩ :: s.passes, resumed := s.resumed ++ [c] } := by
  unfold advance
  rw [hq]
  dsimp only
  rw [hr,Option.bind_eq_bind,Option.bind_some,if_pos hc]

theorem advance_nothing (hq : s.mq = []) (rest : List PassCall) :
    advance (.loopOnce :: rest) s = advance rest s := by
  rw [advance,hq]

theorem advance_undefined (hq : s.mq = []) (rest : List PassCall) :
    advance (.loopOnceUnchecked :: rest) s = none := by
  rw [advance,hq]

theorem Wf.resume (hs : s.Wf) {c : Nat} {mq : List Nat} (hq : s.mq = c :: mq) :
    ∃ env, s.env.resume c = some env ∧ env.control = c ∧ env.created = s.env.created ∧
      ∀ rest resumed, Wf ⟨env,mq,⟨c,rest⟩ :: s.passes,resumed⟩ := by
  have hmem : c ∈ s.mq := by
    rw [hq]
    exact List.mem_cons_self
  obtain ⟨hout,co,hco,he⟩ := hs.waiting c hmem
  obtain ⟨env,hr,hinv⟩ := hs.env.resume (c := c) (by simp [hco]) hout
  obtain ⟨hsame,hstack,hcreated⟩ := Environment.resume_effects hco he hr
  have hcontrol : env.control = c := by
    have hhead := hinv.head
    rw [hstack,List.head?_cons] at hhead
    exact (Option.some.inj hhead).symm
  have hnodup : (c :: mq).Nodup := hq ▸ hs.nodup
  obtain ⟨hnot,hnodup⟩ := List.nodup_cons.mp hnodup
  refine ⟨env,hr,hcontrol,hcreated,fun rest resumed => ⟨hinv,?_,hnodup,fun d hd => ?_⟩⟩
  · rw [hstack,hs.stack]
    rfl
  · obtain ⟨hdout,r,hdr,hre⟩ := hs.waiting d (by rw [hq]; exact List.mem_cons_of_mem _ hd)
    have hdc : d ≠ c := by
      rintro rfl
      exact hnot hd
    refine ⟨?_,r,(hsame d hdc).trans hdr,hre⟩
    rw [hstack]
    exact fun hin => (List.mem_cons.mp hin).elim hdc hdout

theorem Wf.advanced (hs : s.Wf) {calls : List PassCall} (h : advance calls s = some t) : t.Wf := by
  induction calls with
  | nil =>
    cases h
    exact hs
  | cons call rest ih =>
    cases hq : s.mq with
    | nil =>
      cases call with
      | loopOnce =>
        rw [advance_nothing hq] at h
        exact ih h
      | loopOnceUnchecked =>
        rw [advance_undefined hq] at h
        cases h
    | cons c mq =>
      obtain ⟨env,hr,hc,_,hw⟩ := hs.resume hq
      rw [advance_resumed hq hr hc] at h
      cases h
      exact hw _ _

theorem back_of {p : Pass} {passes : List Pass} (hp : s.passes = p :: passes)
    {left : Option Environment} {env : Environment} (he : left = some env) :
    s.back left = Looper.advance p.rest (requeue ⟨env,s.mq,passes,s.resumed⟩ p.co) := by
  simp only [back,hp,he,Option.bind_eq_bind,Option.bind_some]

theorem Wf.current (hs : s.Wf) {p : Pass} {passes : List Pass} (hp : s.passes = p :: passes) :
    p.co = s.env.control ∧ s.env.control ≠ main ∧ p.co ∉ s.env.cStack.tail ∧ p.co ∉ s.mq ∧
      s.env.cStack.tail = passes.map Pass.co ++ [main] := by
  have hstack : s.env.cStack = p.co :: (passes.map Pass.co ++ [main]) := by
    rw [hs.stack,hp]
    rfl
  have hhead := hs.env.head
  rw [hstack,List.head?_cons] at hhead
  obtain ⟨hnot,_⟩ := List.nodup_cons.mp (hstack ▸ hs.env.nodup)
  have hcontrol : p.co = s.env.control := Option.some.inj hhead
  refine ⟨hcontrol,?_,?_,fun hq => ?_,by rw [hstack]; rfl⟩
  · rw [← hcontrol]
    intro hm
    exact hnot (by simp [hm])
  · rw [hstack]
    exact hnot
  · exact (hs.waiting p.co hq).1 (by rw [hstack]; exact List.mem_cons_self)

theorem Wf.runtime (hs : s.Wf) (hc : s.env.control ≠ main) :
    ∃ co, s.env.coroutines s.env.control = some co ∧ co.runtime = RUNNING :=
  hs.env.running.resolve_left hc

theorem Wf.yields (hs : s.Wf) {p : Pass} {passes : List Pass} (hp : s.passes = p :: passes) :
    ∃ env, s.env.yield = some env ∧
      requeue ⟨env,s.mq,passes,s.resumed⟩ p.co = ⟨env,s.mq ++ [p.co],passes,s.resumed⟩ ∧
      Wf ⟨env,s.mq ++ [p.co],passes,s.resumed⟩ ∧ env.created = s.env.created := by
  obtain ⟨hcontrol,hmain,hout,hqueue,htail⟩ := hs.current hp
  obtain ⟨co,hco,hr⟩ := hs.runtime hmain
  obtain ⟨env,_,hy,hinv,_⟩ := hs.env.yield hmain
  obtain ⟨hsame,hstack,hcreated⟩ := Environment.yield_effects hy
  have hrunning : env.coroutines p.co = some co ∧ co.running ∧ ¬co.exit := by
    rw [hsame,hcontrol]
    refine ⟨hco,?_,?_⟩
    · simp only [Coroutine.running,hr]
      decide
    · simp only [Coroutine.exit,hr]
      decide
  refine ⟨env,hy,?_,⟨hinv,hstack.trans htail,?_,?_⟩,hcreated⟩
  · simp only [requeue,running,hrunning.1,Option.any_some,hrunning.2.1,decide_true,if_true]
  · exact (List.perm_append_singleton _ _).nodup_iff.mpr (List.nodup_cons.mpr ⟨hqueue,hs.nodup⟩)
  · intro c hc
    rw [hstack,hsame]
    rcases List.mem_append.mp hc with hc | hc
    · obtain ⟨hcout,hcos⟩ := hs.waiting c hc
      exact ⟨fun hin => hcout (List.mem_of_mem_tail hin),hcos⟩
    · obtain rfl := List.mem_singleton.mp hc
      exact ⟨hout,co,hsame ▸ hrunning.1,hrunning.2.2⟩

theorem Wf.finishes (hs : s.Wf) {p : Pass} {passes : List Pass} (hp : s.passes = p :: passes) :
    ∃ env env', s.env.exit = some env ∧
      requeue ⟨env,s.mq,passes,s.resumed⟩ p.co = ⟨env',s.mq,passes,s.resumed⟩ ∧
      Wf ⟨env',s.mq,passes,s.resumed⟩ ∧ env'.created = s.env.created := by
  obtain ⟨hcontrol,hmain,hout,hqueue,htail⟩ := hs.current hp
  obtain ⟨co,hco,hr⟩ := hs.runtime hmain
  obtain ⟨env,_,hy,hinv,_⟩ := hs.env.exit hmain
  obtain ⟨hsame,⟨context,hleft⟩,hstack,hcreated⟩ := Environment.exit_effects hco hy
  have hstopped : ¬(Coroutine.mk (co.runtime ^^^ (EXIT ||| RUNNING)) context).running := by
    simp only [Coroutine.running,hr]
    decide
  rw [← hcontrol] at hsame hleft
  have hoff : p.co ∉ env.cStack := by
    rw [hstack]
    exact hout
  refine ⟨env,env.setCoroutine p.co none,hy,?_,⟨hinv.replaced hoff (.inl rfl) (.inl rfl),
    hstack.trans htail,hs.nodup,fun c hc => ?_⟩,hcreated⟩
  · simp only [requeue,running,hleft,Option.any_some,hstopped,decide_false,Bool.false_eq_true,if_false]
  · obtain ⟨hcout,r,hcr,hre⟩ := hs.waiting c hc
    have hne : c ≠ p.co := by
      rintro rfl
      exact hqueue hc
    refine ⟨?_,r,?_,hre⟩
    · change c ∉ env.cStack
      rw [hstack]
      exact fun hin => hcout (List.mem_of_mem_tail hin)
    · exact (Function.update_of_ne hne _ _).trans ((hsame c hne).trans hcr)

theorem Wf.post (hs : s.Wf) :
    Wf { s with env := s.env.createCoroutine, mq := s.mq ++ [s.env.created] } := by
  have hfree : s.env.coroutines s.env.created = none := hs.env.unborn _ (Nat.le_refl _)
  have hnew : s.env.created ∉ s.mq := by
    intro hin
    obtain ⟨_,co,hco,_⟩ := hs.waiting _ hin
    rw [hfree] at hco
    cases hco
  have hout : s.env.created ∉ s.env.cStack := by
    intro hin
    obtain ⟨co,hco⟩ := hs.env.alive hin
    rw [hfree] at hco
    cases hco
  refine ⟨hs.env.createCoroutine,hs.stack,?_,?_⟩
  · exact (List.perm_append_singleton _ _).nodup_iff.mpr (List.nodup_cons.mpr ⟨hnew,hs.nodup⟩)
  · intro c hc
    rcases List.mem_append.mp hc with hc | hc
    · obtain ⟨hcout,r,hcr,hre⟩ := hs.waiting c hc
      have hne : c ≠ s.env.created := by
        rintro rfl
        exact hnew hc
      exact ⟨hcout,r,(Function.update_of_ne hne _ _).trans hcr,hre⟩
    · obtain rfl := List.mem_singleton.mp hc
      exact ⟨hout,⟨0,none⟩,Function.update_self _ _ _,by decide⟩

theorem Wf.left (hs : s.Wf) {p : Pass} {passes : List Pass} (hp : s.passes = p :: passes)
    {l : Label} (hl : l = .yield ∨ l = .finish) :
    ∃ env u, requeue ⟨env,s.mq,passes,s.resumed⟩ p.co = u ∧ u.Wf ∧ u.passes = passes ∧
      u.resumed = s.resumed ∧ u.env.created = s.env.created ∧
      u.mq = s.mq ++ (if l = .finish then [] else [p.co]) ∧
      ∀ (body : Nat → List PassCall) (r : Looper) q rest, r.env = s.env → r.passes = q :: rest →
        r.step body l = Looper.advance q.rest (requeue ⟨env,r.mq,rest,r.resumed⟩ q.co) := by
  rcases hl with rfl | rfl
  · obtain ⟨env,hy,hu,hw,hcreated⟩ := hs.yields hp
    refine ⟨env,_,hu,hw,rfl,rfl,hcreated,rfl,fun body r q rest hr hq => ?_⟩
    exact back_of hq (by rw [hr,hy])
  · obtain ⟨env,_,hy,hu,hw,hcreated⟩ := hs.finishes hp
    refine ⟨env,_,hu,hw,rfl,rfl,hcreated,(List.append_nil _).symm,fun body r q rest hr hq => ?_⟩
    exact back_of hq (by rw [hr,hy])

theorem passes_of_leaves {l : Label} (hl : l = .yield ∨ l = .finish) (h : s.step body l = some t) :
    ∃ p passes, s.passes = p :: passes := by
  cases hp : s.passes with
  | nil => rcases hl with rfl | rfl <;> simp [step,back,hp] at h
  | cons p passes => exact ⟨p,passes,rfl⟩

theorem Wf.stepped (hs : s.Wf) {l : Label} (h : s.step body l = some t) : t.Wf := by
  have hleaves : l = .yield ∨ l = .finish → t.Wf := by
    intro hl
    obtain ⟨p,passes,hp⟩ := passes_of_leaves hl h
    obtain ⟨env,u,hu,hw,_,_,_,_,hstep⟩ := hs.left hp hl
    rw [hstep body s p passes rfl hp,hu] at h
    exact hw.advanced h
  cases l with
  | post =>
    cases h
    exact hs.post
  | loop => exact hs.advanced h
  | loopOnce => exact hs.advanced h
  | yield => exact hleaves (.inl rfl)
  | finish => exact hleaves (.inr rfl)

theorem Wf.reached (h : Path (step body) Any init s) : s.Wf :=
  h.keeps (fun _ _ _ _ hstep hi => hi.stepped hstep) init_wf

end Steps
structure Turn where
  posts : Nat
  finishes : Bool
  deriving DecidableEq, Repr

def Turn.labels (turn : Turn) : List Label :=
  List.replicate turn.posts .post ++ [if turn.finishes then .finish else .yield]

/-- What the queue gets from the turn of `co`; new coroutines are numbered from `created`. -/
def Turn.leaves (created co : Nat) (turn : Turn) : List Nat :=
  List.range' created turn.posts ++ if turn.finishes then [] else [co]

def leftovers : Nat → List Nat → List Turn → List Nat
  | created,co :: cos,turn :: turns =>
      turn.leaves created co ++ leftovers (created+turn.posts) cos turns
  | _,_,_ => []

section Passes
variable {s : Looper} {body : Nat → List PassCall}

theorem Wf.posts (hs : s.Wf) (body : Nat → List PassCall) (n : Nat) :
    ∃ env, Runs.run (step body) Any s (List.replicate n .post) =
        some ⟨env,s.mq ++ List.range' s.env.created n,s.passes,s.resumed⟩ ∧
      Wf ⟨env,s.mq ++ List.range' s.env.created n,s.passes,s.resumed⟩ ∧
      env.created = s.env.created+n := by
  induction n generalizing s with
  | zero => exact ⟨s.env,by simp [Runs.run],by simpa using hs,rfl⟩
  | succ n ih =>
    obtain ⟨env,hrun,hw,hcreated⟩ := ih hs.post
    have hqueue : s.mq ++ [s.env.created] ++ List.range' (s.env.created+1) n =
        s.mq ++ List.range' s.env.created (n+1) := by
      rw [List.range'_succ,List.append_assoc]
      rfl
    have hnext : s.env.createCoroutine.created = s.env.created+1 := rfl
    simp only [hnext,hqueue] at hrun hw hcreated
    refine ⟨env,?_,hw,by omega⟩
    rw [List.replicate_succ,run_any]
    exact hrun

theorem Wf.turn (hs : s.Wf) (body : Nat → List PassCall) {p : Pass} {passes : List Pass}
    (hp : s.passes = p :: passes) (turn : Turn) :
    ∃ u, Runs.run (step body) Any s turn.labels = advance p.rest u ∧ u.Wf ∧
      u.mq = s.mq ++ turn.leaves s.env.created p.co ∧ u.passes = passes ∧ u.resumed = s.resumed ∧
      u.env.created = s.env.created+turn.posts := by
  obtain ⟨posted,hrun,hw,hcreated⟩ := hs.posts body turn.posts
  obtain ⟨env,u,hu,hwu,hpasses,hresumed,hcreated',hmq,hstep⟩ := hw.left hp
    (l := if turn.finishes then .finish else .yield) (by cases turn.finishes <;> simp)
  refine ⟨u,?_,hwu,?_,hpasses,hresumed,hcreated'.trans hcreated⟩
  · rw [Turn.labels,run_append,hrun,Option.bind_some,run_any,hstep body _ p passes rfl hp,hu]
    exact Option.bind_fun_some _
  · rw [hmq,List.append_assoc,Turn.leaves]
    cases turn.finishes <;> rfl

/-- The calls of a pass on the front of the queue, whatever stands behind it. -/
theorem Wf.serves (hs : s.Wf) (body : Nat → List PassCall) {queued more : List Nat}
    (hq : s.mq = queued ++ more) {turns : List Turn} (hturns : turns.length = queued.length) :
    ∃ env, (advance (List.replicate queued.length .loopOnceUnchecked) s).bind
        (fun t => Runs.run (step body) Any t (turns.flatMap Turn.labels)) =
      some ⟨env,more ++ leftovers s.env.created queued turns,s.passes,s.resumed ++ queued⟩ := by
  induction queued generalizing s turns more with
  | nil =>
    obtain rfl : turns = [] := List.length_eq_zero_iff.mp hturns
    refine ⟨s.env,?_⟩
    simp only [List.nil_append] at hq
    simp [advance,Runs.run,leftovers,← hq]
  | cons c queued ih =>
    obtain ⟨turn,turns,rfl⟩ := List.exists_cons_of_length_eq_add_one hturns
    obtain ⟨env,hr,hc,hcreated,hw⟩ := hs.resume hq
    obtain ⟨u,hrun,hw',hmq,hpasses,hresumed,hcreated'⟩ :=
      (hw (List.replicate queued.length .loopOnceUnchecked) (s.resumed ++ [c])).turn body rfl turn
    have hq' : u.mq = queued ++ (more ++ turn.leaves s.env.created c) := by
      rw [hmq,← List.append_assoc]
      exact congrArg (fun k => queued ++ more ++ turn.leaves k c) hcreated
    obtain ⟨env',hrest⟩ := ih hw' hq' (Nat.succ.inj hturns)
    refine ⟨env',?_⟩
    rw [List.length_cons,List.replicate_succ,advance_resumed hq hr hc,Option.bind_some,
      List.flatMap_cons,run_append,hrun,hrest]
    simp only [leftovers,List.append_assoc,List.singleton_append,hpasses,hresumed,hcreated',hcreated]

/-- One pass from any state of the looper: what was queued is resumed once, in order,
and leaves what it posted and itself, unless it has returned. -/
theorem loop_serves_queued (s : Looper) (hrun : Path (step unroll4x) Any init s) (turns : List Turn)
    (hturns : turns.length = s.mq.length) :
    (unroll4x s.mq.length).length = s.mq.length ∧
    ∃ t, Runs.run (step unroll4x) Any s (.loop :: turns.flatMap Turn.labels) = some t ∧
      t.resumed = s.resumed ++ s.mq ∧ t.mq = leftovers s.env.created s.mq turns ∧
      t.passes = s.passes := by
  obtain ⟨env,h⟩ := (Wf.reached hrun).serves unroll4x (List.append_nil _).symm hturns
  rw [List.nil_append] at h
  refine ⟨by rw [unroll4x_eq,List.length_replicate],
    ⟨env,leftovers s.env.created s.mq turns,s.passes,s.resumed ++ s.mq⟩,?_,rfl,rfl,rfl⟩
  rw [run_any,step,unroll4x_eq]
  exact h

end Passes

/-- Two tasks are posted, and the first posts another and yields while the second returns. -/
theorem loop_serves_queued_two : ∃ s t, Runs.run (step unroll4x) Any init [.post,.post] = some s ∧
    Runs.run (step unroll4x) Any s (.loop :: [Turn.mk 1 false,⟨0,true⟩].flatMap Turn.labels) = some t ∧
    t.resumed = [1,2] ∧ t.mq = [3,1] := by
  obtain ⟨s,hs⟩ := Option.isSome_iff_exists.mp
    (show (Runs.run (step unroll4x) Any init [.post,.post]).isSome by decide +kernel)
  have hstart : (Runs.run (step unroll4x) Any init [.post,.post]).map
      (fun s => (s.mq,s.resumed,s.env.created)) = some ([1,2],[],3) := by decide +kernel
  rw [hs] at hstart
  simp only [Option.map_some,Option.some.injEq,Prod.mk.injEq] at hstart
  obtain ⟨hmq,hresumed,hcreated⟩ := hstart
  obtain ⟨_,t,ht,hr,hq,_⟩ := loop_serves_queued s (run_path hs) [⟨1,false⟩,⟨0,true⟩] (by rw [hmq]; rfl)
  rw [hmq,hresumed] at hr
  rw [hmq,hcreated] at hq
  exact ⟨s,t,hs,ht,hr,hq⟩

section Nesting

def checked (s : Looper) : Looper := { s with passes := s.passes.map Pass.checked }

/-- A task does not return, with nothing queued, to a pass that has more calls to make. -/
def Admits (s : Looper) (l : Label) : Prop :=
  l = .finish → s.mq = [] → ∀ p ∈ s.passes.head?, p.rest = []

instance (s : Looper) (l : Label) : Decidable (s.Admits l) := by
  unfold Admits
  infer_instance

/-- The code does next what the reference does, and does not take from an empty queue. -/
structure Agrees (s : Looper) (l : Label) : Prop where
  same : (s.step unroll4x l).map checked = s.checked.step loopOnces l
  defined : s.passes ≠ [] ∨ l ≠ .yield ∧ l ≠ .finish → (s.step unroll4x l).isSome

section Simulation
variable {s t : Looper} {calls : List PassCall}

theorem requeue_checked (s : Looper) (co : Nat) : (s.requeue co).checked = s.checked.requeue co := by
  unfold requeue
  change _ = if s.running co then _ else _
  split <;> rfl

theorem advance_checked (hs : s.Wf) (h : advance calls s = some t) :
    advance (calls.map (fun _ => .loopOnce)) s.checked = some t.checked := by
  induction calls with
  | nil =>
    cases h
    rfl
  | cons call rest ih =>
    rw [List.map_cons]
    cases hq : s.mq with
    | nil =>
      cases call with
      | loopOnce =>
        rw [advance_nothing hq] at h
        rw [advance_nothing (s := s.checked) hq]
        exact ih h
      | loopOnceUnchecked =>
        rw [advance_undefined hq] at h
        cases h
    | cons c mq =>
      obtain ⟨env,hr,hc,_⟩ := hs.resume hq
      rw [advance_resumed hq hr hc] at h
      cases h
      exact advance_resumed (s := s.checked) hq hr hc _ _

theorem Wf.advances (hs : s.Wf) (h : s.mq = [] → calls = []) : (advance calls s).isSome := by
  cases hq : s.mq with
  | nil =>
    rw [h hq]
    rfl
  | cons c mq =>
    cases calls with
    | nil => rfl
    | cons call rest =>
      obtain ⟨env,hr,hc,_⟩ := hs.resume hq
      rw [advance_resumed hq hr hc]
      rfl

theorem Wf.advances_checked (hs : s.Wf) (n : Nat) : (advance (loopOnces n) s).isSome := by
  induction n with
  | zero => rfl
  | succ n ih =>
    cases hq : s.mq with
    | nil =>
      rw [loopOnces,List.replicate_succ,advance_nothing hq]
      exact ih
    | cons c mq => exact hs.advances (by simp [hq])

theorem loopOnces_map (n : Nat) :
    (List.replicate n PassCall.loopOnceUnchecked).map (fun _ => .loopOnce) = loopOnces n :=
  List.map_replicate

theorem Wf.simulated (hs : s.Wf) {l : Label} (h : s.step unroll4x l = some t) :
    s.checked.step loopOnces l = some t.checked := by
  have hleaves : l = .yield ∨ l = .finish → s.checked.step loopOnces l = some t.checked := by
    intro hl
    obtain ⟨p,passes,hp⟩ := passes_of_leaves hl h
    obtain ⟨env,u,hu,hw,_,_,_,_,hstep⟩ := hs.left hp hl
    have hpc : s.checked.passes = p.checked :: passes.map Pass.checked := by
      simp [checked,hp]
    rw [hstep _ s p passes rfl hp,hu] at h
    rw [hstep _ s.checked _ _ rfl hpc]
    have huc := requeue_checked ⟨env,s.mq,passes,s.resumed⟩ p.co
    rw [hu] at huc
    exact huc ▸ advance_checked hw h
  cases l with
  | post =>
    cases h
    rfl
  | loop =>
    have hc := advance_checked hs h
    rw [unroll4x_eq,loopOnces_map] at hc
    exact hc
  | loopOnce => exact advance_checked hs h
  | yield => exact hleaves (.inl rfl)
  | finish => exact hleaves (.inr rfl)

def Unrolled (s : Looper) : Prop := ∀ p ∈ s.passes, ∀ call ∈ p.rest, call = .loopOnceUnchecked

theorem Wf.advanced_unrolled (hs : s.Wf) (hu : s.Unrolled)
    (hcalls : ∀ call ∈ calls.tail, call = .loopOnceUnchecked) (h : advance calls s = some t) :
    t.Unrolled := by
  cases calls with
  | nil =>
    cases h
    exact hu
  | cons call rest =>
    cases hq : s.mq with
    | nil =>
      cases call with
      | loopOnce =>
        rw [advance_nothing hq] at h
        cases rest with
        | nil =>
          cases h
          exact hu
        | cons next rest =>
          obtain rfl := hcalls next List.mem_cons_self
          rw [advance_undefined hq] at h
          cases h
      | loopOnceUnchecked =>
        rw [advance_undefined hq] at h
        cases h
    | cons c mq =>
      obtain ⟨env,hr,hc,_⟩ := hs.resume hq
      rw [advance_resumed hq hr hc] at h
      cases h
      exact List.forall_mem_cons.mpr ⟨hcalls,hu⟩

theorem Wf.stepped_unrolled (hs : s.Wf) (hu : s.Unrolled) {l : Label}
    (h : s.step unroll4x l = some t) : t.Unrolled := by
  have hleaves : l = .yield ∨ l = .finish → t.Unrolled := by
    intro hl
    obtain ⟨p,passes,hp⟩ := passes_of_leaves hl h
    obtain ⟨env,u,hreq,hw,hpasses,_,_,_,hstep⟩ := hs.left hp hl
    rw [hstep _ s p passes rfl hp,hreq] at h
    have hall := hu
    rw [Unrolled,hp] at hall
    obtain ⟨hpu,hrest⟩ := List.forall_mem_cons.mp hall
    refine hw.advanced_unrolled (by rw [Unrolled,hpasses]; exact hrest) (fun call hcall => ?_) h
    exact hpu call (List.mem_of_mem_tail hcall)
  cases l with
  | post =>
    cases h
    exact hu
  | loop =>
    refine hs.advanced_unrolled hu (fun call hcall => ?_) h
    rw [unroll4x_eq] at hcall
    exact List.eq_of_mem_replicate (List.mem_of_mem_tail hcall)
  | loopOnce => exact hs.advanced_unrolled hu (by simp) h
  | yield => exact hleaves (.inl rfl)
  | finish => exact hleaves (.inr rfl)

theorem Wf.agrees (hs : s.Wf) {l : Label} (hl : s.Admits l) : s.Agrees l := by
  have hdefined : s.passes ≠ [] ∨ l ≠ .yield ∧ l ≠ .finish → (s.step unroll4x l).isSome := by
    intro hrunning
    have hleaves : l = .yield ∨ l = .finish → (s.step unroll4x l).isSome := by
      intro hleave
      obtain ⟨p,passes,hp⟩ : ∃ p passes, s.passes = p :: passes := by
        refine List.exists_cons_of_ne_nil (hrunning.elim id (fun h => ?_))
        exact absurd hleave (not_or.mpr h)
      obtain ⟨env,u,hreq,hw,_,_,_,hmq,hstep⟩ := hs.left hp hleave
      rw [hstep _ s p passes rfl hp,hreq]
      refine hw.advances (fun hempty => ?_)
      rw [hmq] at hempty
      obtain ⟨hqueue,hlast⟩ := List.append_eq_nil_iff.mp hempty
      rcases hleave with rfl | rfl
      · simp at hlast
      · exact hl rfl hqueue p (by rw [hp]; rfl)
    cases l with
    | post => rfl
    | loop => exact hs.advances (fun hempty => by rw [hempty]; rfl)
    | loopOnce => exact hs.advances_checked 1
    | yield => exact hleaves (.inl rfl)
    | finish => exact hleaves (.inr rfl)
  refine ⟨?_,hdefined⟩
  cases h : s.step unroll4x l with
  | some t => exact (hs.simulated h).symm
  | none =>
    -- only the driving code, which neither yields nor returns, is left
    have hidle : ¬(s.passes ≠ [] ∨ l ≠ .yield ∧ l ≠ .finish) := by
      intro hrunning
      have hsome := hdefined hrunning
      rw [h] at hsome
      cases hsome
    obtain ⟨hp,hleave⟩ := not_or.mp hidle
    have hpc : s.checked.passes = [] := by simp [checked,not_not.mp hp]
    have hnone : ∀ left, s.checked.back left = none := by
      intro left
      rw [back,hpc]
    cases l with
    | yield => exact (hnone _).symm
    | finish => exact (hnone _).symm
    | _ => exact absurd ⟨by simp,by simp⟩ hleave

/-- A task that returns to a pass with calls to make, and leaves nothing queued, makes
the code take from an empty queue, where the reference goes on. -/
theorem Wf.disagrees (hs : s.Wf) (hu : s.Unrolled) {l : Label} (hl : ¬s.Admits l) : ¬s.Agrees l := by
  simp only [Admits,Classical.not_imp,not_forall] at hl
  obtain ⟨rfl,hqueue,p,hp,hrest⟩ := hl
  obtain ⟨passes,hp⟩ : ∃ passes, s.passes = p :: passes := by
    obtain ⟨passes,hpasses⟩ := List.head?_eq_some_iff.mp hp
    exact ⟨passes,hpasses⟩
  obtain ⟨env,u,hreq,_,_,_,_,hmq,hstep⟩ := hs.left hp (.inr rfl)
  rw [hqueue,if_pos rfl,List.append_nil] at hmq
  obtain ⟨call,rest,hcall⟩ := List.exists_cons_of_ne_nil hrest
  have hunchecked : call = .loopOnceUnchecked :=
    hu p (by rw [hp]; exact List.mem_cons_self) call (by rw [hcall]; exact List.mem_cons_self)
  intro hagrees
  have hdefined := hagrees.defined (.inl (by simp [hp]))
  rw [hstep _ s p passes rfl hp,hreq,hcall,hunchecked,advance_undefined hmq] at hdefined
  cases hdefined

end Simulation

/-- Along every run in which no task returns, with nothing queued, to a pass that has
more calls to make, the code does what the reference does; and it goes on to just as
long as none does. -/
theorem loop_agrees_iff_admits (ls : List Label) (s : Looper)
    (hrun : Runs.run (step unroll4x) Admits init ls = some s) :
    Runs.run (step loopOnces) Any init ls = some s.checked ∧ ∀ l, s.Agrees l ↔ s.Admits l := by
  obtain ⟨hs,hu,hreference⟩ := run_induct
    (I := fun ls t => t.Wf ∧ t.Unrolled ∧ Runs.run (step loopOnces) Any init ls = some t.checked)
    (fun ls t l u _ hstep hi => by
      refine ⟨hi.1.stepped hstep,hi.1.stepped_unrolled hi.2.1 hstep,?_⟩
      rw [run_append,hi.2.2,Option.bind_some,run_any,hi.1.simulated hstep]
      rfl)
    ⟨init_wf,by simp [Unrolled,init],show Runs.run _ _ init [] = _ from rfl⟩ hrun
  refine ⟨hreference,fun l => ⟨fun h => ?_,hs.agrees⟩⟩
  by_contra hl
  exact hs.disagrees hu hl h

/-- The first of two tasks runs the looper, in which the second yields. -/
theorem loop_agrees_iff_admits_nested : ∃ s t,
    Runs.run (step unroll4x) Admits init [.post,.post,.loop,.loop,.yield,.finish] = some s ∧
    Runs.run (step loopOnces) Any init [.post,.post,.loop,.loop,.yield,.finish] = some t ∧
    s.resumed = [1,2,2] ∧ s.checked = t ∧ ∀ l, s.Agrees l ↔ s.Admits l := by
  obtain ⟨s,hs⟩ := Option.isSome_iff_exists.mp (show (Runs.run (step unroll4x) Admits init
    [.post,.post,.loop,.loop,.yield,.finish]).isSome by decide +kernel)
  have hresumed : (Runs.run (step unroll4x) Admits init [.post,.post,.loop,.loop,.yield,.finish]).map
      Looper.resumed = some [1,2,2] := by decide +kernel
  rw [hs] at hresumed
  obtain ⟨href,hiff⟩ := loop_agrees_iff_admits _ s hs
  exact ⟨s,_,hs,href,Option.some.inj hresumed,rfl,hiff⟩

def drained : List Label := [.post,.post,.loop,.loop,.finish,.finish]

theorem loop_disagrees : ¬∀ ls t, Runs.run (step loopOnces) Any init ls = some t →
    ∃ s, Runs.run (step unroll4x) Any init ls = some s ∧ s.checked = t := by
  intro hall
  have hreference : (Runs.run (step loopOnces) Any init drained).isSome := by decide +kernel
  have hcode : (Runs.run (step unroll4x) Any init drained).isNone := by decide +kernel
  obtain ⟨t,ht⟩ := Option.isSome_iff_exists.mp hreference
  obtain ⟨s,hs,_⟩ := hall drained t ht
  rw [hs] at hcode
  cases hcode

end Nesting

end Looper
end FluentNet
