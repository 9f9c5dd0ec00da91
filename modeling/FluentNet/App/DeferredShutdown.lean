import FluentNet.App.Client
import FluentNet.App.SharedMultiplexer
import FluentNet.Network.PoolReclaim
set_option autoImplicit false

/-! Whether the context of a deferred shutdown is still there when its poll runs. -/

namespace FluentNet
open Runs

namespace Client
variable {α : Type} {s t : Client α}

structure Wf (s : Client α) : Prop where
  store : s.connections.Wf
  left : ∀ n, s.phase = .loop n → n ≤ s.mq.length
  buffered : ∀ e ∈ s.eventBuffer, (s.connections.heap e.1).isSome
  idle : s.phase ≠ .handle → s.eventBuffer = []

structure Current (s : Client α) : Prop where
  polls : ∀ p ∈ s.polls, (s.find p).isSome
  stale : s.stale = []

/-- A connect continuation runs while no poll in the queue is for a context that is
disconnected and let go. -/
def Spares (s : Client α) : Label α → Prop
  | .loopOnce _ => s.emplacing = true →
      ∀ p ∈ s.polls, Pool.isReusable s.connections.heap (some p.1) = false
  | _ => True

instance (s : Client α) (l : Label α) : Decidable (s.Spares l) := by
  unfold Spares
  split <;> infer_instance

@[simp] theorem posted_polls (n : Nat) (bundle : Bundle) (serial : Nat) :
    (List.replicate n (Task.shutdownPoll (α := α) bundle serial)).filterMap Task.shutdownPoll? =
      List.replicate n (bundle,serial) := by
  simp [Task.shutdownPoll?,List.filterMap_replicate]

section Contexts
variable {bundle : Bundle} {value : BundleValue}

theorem find_heap {p : Bundle × Nat} (h : s.find p = some value) : s.connections.heap p.1 = some value := by
  simp only [find] at h
  split at h
  · exact h
  · cases h

theorem withContext_alive (h : s.connections.heap bundle = some value) (context : Conn) (b : Bundle) :
    ((s.withContext bundle value context).connections.heap b).isSome = (s.connections.heap b).isSome :=
  Heap.set_alive h _ b

theorem withContext_find (h : s.connections.heap bundle = some value) (context : Conn)
    (p : Bundle × Nat) : ((s.withContext bundle value context).find p).isSome = (s.find p).isSome := by
  simp only [find]
  change (if s.born p.1 = p.2 then (s.withContext bundle value context).connections.heap p.1
    else none).isSome = _
  split
  · exact withContext_alive h context p.1
  · rfl

theorem withContext_polls (s : Client α) (bundle : Bundle) (value : BundleValue) (context : Conn) :
    (s.withContext bundle value context).polls =
      s.polls ++ List.replicate context.deferred (bundle,s.born bundle) := by
  simp [withContext,polls]

theorem Wf.withContext (hs : s.Wf) (h : s.connections.heap bundle = some value) (context : Conn) :
    (s.withContext bundle value context).Wf := by
  refine ⟨hs.store.changed (withContext_alive h context),fun n hn => ?_,fun e he => ?_,hs.idle⟩
  · have hle := hs.left n hn
    simp only [Client.withContext,List.length_append]
    omega
  · rw [withContext_alive h]
    exact hs.buffered e he

theorem Current.withContext (hs : s.Current) (h : s.connections.heap bundle = some value)
    (context : Conn) : (s.withContext bundle value context).Current := by
  refine ⟨fun p hp => ?_,hs.stale⟩
  rw [withContext_find h]
  rw [withContext_polls] at hp
  rcases List.mem_append.mp hp with hp | hp
  · exact hs.polls p hp
  · obtain ⟨_,rfl⟩ := List.mem_replicate.mp hp
    simp [find,h]

end Contexts

section Tasks
variable {env : TaskEnv}

theorem Wf.more (hs : s.Wf) (tasks : List (Task α)) : Wf { s with mq := s.mq ++ tasks } := by
  refine ⟨hs.store,fun n hn => ?_,hs.buffered,hs.idle⟩
  have hle := hs.left n hn
  simp only [List.length_append]
  omega

theorem Current.more (hs : s.Current) {tasks : List (Task α)}
    (hnone : tasks.filterMap Task.shutdownPoll? = []) : Current { s with mq := s.mq ++ tasks } := by
  refine ⟨fun p hp => ?_,hs.stale⟩
  rw [Client.polls,List.filterMap_append,hnone,List.append_nil] at hp
  exact hs.polls p hp

theorem Wf.emplace (hs : s.Wf) (hphase : s.phase ≠ .handle) {fresh : Bundle}
    (hfree : s.connections.heap fresh = none) :
    ∃ t, s.emplace fresh = some t ∧ t.Wf ∧ t.mq = s.mq ∧ t.phase = s.phase ∧ t.stale = s.stale ∧
      t.handler = s.handler ∧ (t.connections.heap fresh).isSome ∧
      ∀ p, p.1 ≠ fresh → (t.find p).isSome =
        if s.connections.victim = some p.1 then false else (s.find p).isSome := by
  obtain ⟨connections,hc,hwf,hheap⟩ := hs.store.emplace_heap s.token hfree
  have hspared := hs.store.victim_ne hfree
  let born b := if b = fresh then s.born b+1 else s.born b
  refine ⟨{ s with connections, born },by simp [Client.emplace,hc,born],⟨hwf,hs.left,fun e he => ?_,
    hs.idle⟩,rfl,rfl,rfl,rfl,?_,?_⟩
  · rw [hs.idle hphase] at he
    cases he
  · simp [hheap,hspared]
  · intro p hp
    simp only [find,born,if_neg hp,hheap]
    split <;> split <;> rfl

theorem Wf.connected (hs : s.Wf) (env : TaskEnv) (hphase : s.phase ≠ .handle)
    (hfree : s.connections.heap env.fresh = none) :
    ∃ t n serial, s.connected env = some t ∧ t.Wf ∧
      t.mq = s.mq ++ List.replicate n (.shutdownPoll env.fresh serial) ∧
      t.phase = s.phase ∧ t.stale = s.stale ∧ (t.find (env.fresh,serial)).isSome ∧
      ∀ p, p.1 ≠ env.fresh → (t.find p).isSome =
        if s.connections.victim = some p.1 then false else (s.find p).isSome := by
  obtain ⟨u,hu,hwf,hmq,huphase,hstale,hhandler,hnew,hfind⟩ := hs.emplace hphase hfree
  obtain ⟨value,hvalue⟩ := Option.isSome_iff_exists.mp hnew
  let context : Conn := Context.ensureLifecycle
    (u.handler.handleNewContext env.ctl env.callback value.context).2
  have hstep : s.connected env = some (u.withContext env.fresh value context) := by
    simp [Client.connected,hfree,hu,hvalue,context]
  refine ⟨_,context.deferred,u.born env.fresh,hstep,hwf.withContext hvalue _,?_,huphase,hstale,?_,
    fun p hp => ?_⟩
  · rw [← hmq]
    rfl
  · rw [withContext_find hvalue]
    simp [find,hvalue]
  · rw [withContext_find hvalue]
    exact hfind p hp

theorem resume_cases {task : Task α} (h : s.resume env task = some t) :
    (∃ tasks, tasks.filterMap Task.shutdownPoll? = [] ∧ t = { s with mq := s.mq ++ tasks }) ∨
    (∃ p value, task = .shutdownPoll p.1 p.2 ∧ s.find p = some value ∧
      t = s.withContext p.1 value (Context.runPoll value.context).2) ∨
    (∃ p, task = .shutdownPoll p.1 p.2 ∧ s.find p = none ∧ t = { s with stale := s.stale ++ [p] }) ∨
    (∃ request address socket, task = .connect request ∧ request.stage = .delivered address socket ∧
      s.connected env = some t) := by
  cases task with
  | connect request =>
    simp only [resume] at h
    split at h
    · rename_i address socket hstage
      exact .inr (.inr (.inr ⟨request,address,socket,rfl,hstage,h⟩))
    · cases h
      refine .inl ?_
      simp only [connecting]
      split
      · exact ⟨[],rfl,by simp⟩
      · split
        · exact ⟨[],rfl,by simp⟩
        · exact ⟨[_],rfl,rfl⟩
  | shutdownPoll bundle serial =>
    simp only [resume] at h
    split at h
    · rename_i value hvalue
      cases h
      exact .inr (.inl ⟨(bundle,serial),value,rfl,hvalue,rfl⟩)
    · rename_i hmiss
      cases h
      exact .inr (.inr (.inl ⟨(bundle,serial),rfl,hmiss,rfl⟩))
  | user =>
    simp only [resume,Option.some.injEq] at h
    subst h
    cases env.yields
    · exact .inl ⟨[],rfl,by simp⟩
    · exact .inl ⟨[.user],rfl,rfl⟩

theorem connected_free (h : s.connected env = some t) : s.connections.heap env.fresh = none := by
  simp only [connected] at h
  split at h
  · cases h
  · assumption

theorem Wf.resume {task : Task α} (hs : s.Wf) (hphase : s.phase ≠ .handle)
    (h : s.resume env task = some t) : t.Wf := by
  rcases resume_cases h with ⟨tasks,_,rfl⟩ | ⟨p,value,_,hp,rfl⟩ | ⟨p,_,_,rfl⟩ | ⟨_,_,_,_,_,h⟩
  · exact hs.more tasks
  · exact hs.withContext (find_heap hp) _
  · exact ⟨hs.store,hs.left,hs.buffered,hs.idle⟩
  · obtain ⟨u,_,_,hu,hwf,_⟩ := hs.connected env hphase (connected_free h)
    rw [hu] at h
    cases h
    exact hwf

theorem Current.resume {task : Task α} (hc : s.Current) (hs : s.Wf) (hphase : s.phase ≠ .handle)
    (htask : ∀ p, task.shutdownPoll? = some p → (s.find p).isSome)
    (hspares : ∀ request address socket, task = .connect request →
      request.stage = .delivered address socket → ∀ p ∈ s.polls, s.connections.victim ≠ some p.1)
    (h : s.resume env task = some t) : t.Current := by
  rcases resume_cases h with ⟨tasks,hnone,rfl⟩ | ⟨p,value,_,hp,rfl⟩ | ⟨p,rfl,hmiss,rfl⟩ |
    ⟨request,address,socket,ht,hstage,h⟩
  · exact hc.more hnone
  · exact hc.withContext (find_heap hp) _
  · have hf := htask p rfl
    simp [hmiss] at hf
  · have hfree := connected_free h
    obtain ⟨u,n,serial,hu,_,hmq,_,hstale,hnew,hfind⟩ := hs.connected env hphase hfree
    rw [hu] at h
    cases h
    refine ⟨fun p hp => ?_,hstale.trans hc.stale⟩
    rw [Client.polls,hmq,List.filterMap_append] at hp
    rcases List.mem_append.mp hp with hp | hp
    · have hold := hc.polls p hp
      have hne : p.1 ≠ env.fresh := by
        intro he
        obtain ⟨value,hvalue⟩ := Option.isSome_iff_exists.mp hold
        have halive := find_heap hvalue
        rw [he,hfree] at halive
        cases halive
      rw [hfind p hne,if_neg (hspares request address socket ht hstage p hp)]
      exact hold
    · rw [posted_polls] at hp
      obtain ⟨_,rfl⟩ := List.mem_replicate.mp hp
      exact hnew

end Tasks

section Steps
variable {l : Label α}

inductive Move (s : Client α) : Label α → Client α → Prop where
  | posted {l : Label α} (task : Task α) (hnone : task.shutdownPoll? = none)
      (hl : ∀ env, l ≠ .loopOnce env) : s.Move l (s.post task)
  | ran {l : Label α} {bundle : Bundle} {value : BundleValue} (context : Conn)
      (eventBuffer : List (Bundle × EventBitmap)) (h : s.connections.heap bundle = some value)
      (hbuffer : ∀ e ∈ eventBuffer, e ∈ s.eventBuffer) (hl : ∀ env, l ≠ .loopOnce env) :
      s.Move l ({ s with eventBuffer }.withContext bundle value context)
  | swap {events : List (Bundle × EventBitmap)} (hphase : s.phase = .loop 0)
      (halive : ∀ e ∈ events, (s.connections.heap e.1).isSome) :
      s.Move (.swap events) { s with eventBuffer := events, phase := .handle }
  | loop (hbuffer : s.eventBuffer = []) : s.Move .loop { s with phase := .loop s.mq.length }
  | resumed {left : Nat} {task : Task α} {rest : List (Task α)} (env : TaskEnv) {t : Client α}
      (hphase : s.phase = .loop (left+1)) (hmq : s.mq = task :: rest)
      (ht : { s with mq := rest, phase := .loop left }.resume env task = some t) :
      s.Move (.loopOnce env) t

theorem step_move (h : s.step l = some t) : s.Move l t := by
  cases l with
  | connect address err =>
    cases h
    exact .posted _ rfl (by simp)
  | post =>
    cases h
    exact .posted _ rfl (by simp)
  | user bundle act =>
    obtain ⟨value,hvalue,h⟩ := Option.bind_eq_some_iff.mp h
    cases h
    exact .ran _ s.eventBuffer hvalue (fun _ he => he) (by simp)
  | swap events =>
    simp only [step] at h
    split at h
    · rename_i hs
      cases h
      exact .swap hs.1 hs.2
    · cases h
  | handleEvent env =>
    simp only [step] at h
    split at h
    · rename_i e rest hphase hbuffer
      obtain ⟨value,hvalue,h⟩ := Option.bind_eq_some_iff.mp h
      cases h
      exact .ran _ rest hvalue (fun e' he => hbuffer ▸ List.mem_cons_of_mem e he) (by simp)
    · cases h
  | loop =>
    simp only [step] at h
    split at h
    · rename_i hs
      cases h
      exact .loop hs.2
    · cases h
  | loopOnce env =>
    simp only [step] at h
    split at h
    · rename_i left task rest hphase hmq
      exact .resumed env hphase hmq h
    · cases h

theorem Wf.popped (hs : s.Wf) {left : Nat} {task : Task α} {rest : List (Task α)}
    (hphase : s.phase = .loop (left+1)) (hmq : s.mq = task :: rest) :
    Wf { s with mq := rest, phase := .loop left } := by
  refine ⟨hs.store,fun n hn => ?_,hs.buffered,fun _ => hs.idle (by simp [hphase])⟩
  have hle := hs.left _ hphase
  rw [hmq,List.length_cons] at hle
  cases hn
  exact Nat.le_of_succ_le_succ hle

theorem popped_polls (s : Client α) (left : Nat) {task : Task α} {rest : List (Task α)}
    (hmq : s.mq = task :: rest) :
    s.polls = task.shutdownPoll?.toList ++ polls { s with mq := rest, phase := .loop left } := by
  rw [polls,hmq,List.filterMap_cons]
  cases task.shutdownPoll? <;> rfl

theorem Wf.step (hs : s.Wf) (h : s.step l = some t) : t.Wf := by
  cases step_move h with
  | posted task => exact hs.more [task]
  | ran context eventBuffer hvalue hbuffer =>
    have hs' : Wf { s with eventBuffer } := by
      refine ⟨hs.store,hs.left,fun e he => hs.buffered e (hbuffer e he),fun hp => ?_⟩
      have hnil := hs.idle hp
      rw [hnil] at hbuffer
      exact List.eq_nil_iff_forall_not_mem.mpr (fun e he => List.not_mem_nil (hbuffer e he))
    exact hs'.withContext hvalue context
  | swap hphase halive => exact ⟨hs.store,by simp,halive,fun hp => absurd rfl hp⟩
  | loop hbuffer =>
    refine ⟨hs.store,fun n hn => ?_,hs.buffered,fun _ => hbuffer⟩
    cases hn
    exact Nat.le_refl _
  | resumed env hphase hmq ht => exact (hs.popped hphase hmq).resume (by simp) ht

theorem Current.step (hc : s.Current) (hs : s.Wf) (hl : s.Spares l) (h : s.step l = some t) :
    t.Current := by
  cases step_move h with
  | posted task hnone => exact hc.more (by simp [hnone])
  | ran context eventBuffer hvalue =>
    have hc' : Current { s with eventBuffer } := ⟨hc.polls,hc.stale⟩
    exact hc'.withContext hvalue context
  | swap => exact ⟨hc.polls,hc.stale⟩
  | loop => exact ⟨hc.polls,hc.stale⟩
  | @resumed left task rest env _ hphase hmq ht =>
    have hpolls := popped_polls s left hmq
    have hc' : Current { s with mq := rest, phase := .loop left } :=
      ⟨fun p hp => hc.polls p (hpolls ▸ List.mem_append_right _ hp),hc.stale⟩
    refine hc'.resume (hs.popped hphase hmq) (by simp) (fun p hp => ?_) ?_ ht
    · exact hc.polls p (hpolls ▸ List.mem_append_left _ (by simp [hp]))
    · rintro request address socket rfl hstage p hp hvictim
      have hemplacing : s.emplacing = true := by
        obtain ⟨arguments,stage,sockets,attempts⟩ := request
        cases hstage
        simp [emplacing,hmq]
      have hkept := hl hemplacing p (hpolls ▸ List.mem_append_right _ hp)
      rw [Store.victim_reusable hvictim] at hkept
      cases hkept

theorem init_wf (handler : Handler) (token : Token) : (init (α := α) handler token).Wf := by
  refine ⟨Store.init_wf,fun n hn => ?_,by simp [init],fun _ => rfl⟩
  cases hn
  exact Nat.le_refl _

theorem init_current (handler : Handler) (token : Token) : (init (α := α) handler token).Current :=
  ⟨by simp [init,polls],rfl⟩

end Steps

section Stale
variable {p : Bundle × Nat}

theorem Wf.exists_free (hs : s.Wf) (b : Bundle) : ∃ fresh, s.connections.heap fresh = none ∧ b < fresh := by
  obtain ⟨a,ha⟩ := exists_fresh s.connections.pool.container
  refine ⟨a+b+1,?_,Nat.lt_succ_of_le (Nat.le_add_left b a)⟩
  have hcount := List.count_eq_zero.mpr (ha (a+b+1) (by omega))
  rw [hs.store.owned] at hcount
  split at hcount
  · omega
  · rename_i hnone
    simpa using hnone

theorem Wf.resumes (hs : s.Wf) (hphase : s.phase ≠ .handle) (task : Task α) (hmiss : s.find p = none) :
    ∃ env t tasks, s.resume env task = some t ∧ t.Wf ∧ t.phase = s.phase ∧ t.mq = s.mq ++ tasks ∧
      t.find p = none := by
  obtain ⟨fresh,hfree,hlt⟩ := hs.exists_free p.1
  let env : TaskEnv := ⟨⟨0,0⟩,fresh,none,.silent,false⟩
  have hsome : ∃ t, s.resume env task = some t := by
    cases task with
    | connect request =>
      simp only [Client.resume]
      split
      · obtain ⟨t,_,_,ht,_⟩ := hs.connected env hphase hfree
        exact ⟨t,ht⟩
      · exact ⟨_,rfl⟩
    | shutdownPoll bundle serial =>
      simp only [Client.resume]
      split <;> exact ⟨_,rfl⟩
    | user => exact ⟨_,rfl⟩
  obtain ⟨t,ht⟩ := hsome
  have hwf := hs.resume hphase ht
  rcases resume_cases ht with ⟨tasks,_,rfl⟩ | ⟨q,value,_,hq,rfl⟩ | ⟨q,_,_,rfl⟩ | ⟨_,_,_,_,_,ht'⟩
  · exact ⟨env,_,tasks,ht,hwf,rfl,rfl,hmiss⟩
  · refine ⟨env,_,_,ht,hwf,rfl,rfl,?_⟩
    have hfind := withContext_find (find_heap hq) (Context.runPoll value.context).2 p
    simpa [hmiss] using hfind
  · exact ⟨env,_,[],ht,hwf,rfl,by simp,hmiss⟩
  · obtain ⟨u,n,serial,hu,_,hmq,huphase,_,_,hfind⟩ := hs.connected env hphase hfree
    rw [hu] at ht'
    cases ht'
    refine ⟨env,t,_,ht,hwf,huphase,hmq,?_⟩
    have hkept := hfind p (Nat.ne_of_lt hlt)
    rw [hmiss] at hkept
    simpa using hkept

theorem Wf.turns (hs : s.Wf) {left : Nat} (hphase : s.phase = .loop left) (hmq : s.mq ≠ []) :
    ∃ n, Path Client.step Any s { s with phase := .loop (n+1) } := by
  cases left with
  | succ n => exact ⟨n,hphase ▸ .refl⟩
  | zero =>
    obtain ⟨n,hn⟩ := Nat.exists_eq_succ_of_ne_zero (fun h => hmq (List.eq_nil_of_length_eq_zero h))
    have hbuffer := hs.idle (by simp [hphase])
    have hswap : s.step (.swap []) = some { s with phase := .handle } := by
      simp only [Client.step,hphase,hbuffer]
      simp
    have hloop : Client.step { s with phase := .handle } .loop = some { s with phase := .loop (n+1) } := by
      simp [Client.step,hbuffer,hn]
    exact ⟨n,(Path.next .refl trivial hswap).next trivial hloop⟩

theorem Wf.reaches_stale {before : List (Task α)} (hs : s.Wf) {left : Nat} (hphase : s.phase = .loop left)
    {after : List (Task α)} (hmq : s.mq = before ++ .shutdownPoll p.1 p.2 :: after)
    (hmiss : s.find p = none) : ∃ u, Path Client.step Any s u ∧ u.stale ≠ [] := by
  -- the tasks in front are resumed one by one, and each goes to the back or away
  induction before generalizing s left after with
  | nil =>
    obtain ⟨n,hturn⟩ := hs.turns hphase (by simp [hmq])
    have hstep : Client.step { s with phase := .loop (n+1) } (.loopOnce ⟨⟨0,0⟩,0,none,.silent,false⟩) =
        some { s with mq := after, phase := .loop n, stale := s.stale ++ [p] } := by
      have hmiss' : find { s with mq := after, phase := .loop n } p = none := hmiss
      simp only [Client.step,hmq,List.nil_append,Client.resume]
      rw [hmiss']
    exact ⟨_,hturn.next trivial hstep,by simp⟩
  | cons task before ih =>
    obtain ⟨n,hturn⟩ := hs.turns hphase (by simp [hmq])
    have hs' : Wf { s with phase := .loop (n+1) } :=
      hturn.keeps (I := Wf) (fun _ _ _ _ he hw => hw.step he) hs
    have hmiss' : find { s with mq := before ++ .shutdownPoll p.1 p.2 :: after, phase := .loop n } p = none :=
      hmiss
    obtain ⟨env,t,tasks,ht,hwf,htphase,htmq,htmiss⟩ :=
      (hs'.popped rfl hmq).resumes (by simp) task hmiss'
    have hstep : Client.step { s with phase := .loop (n+1) } (.loopOnce env) = some t := by
      simp only [Client.step,hmq,List.cons_append]
      exact ht
    have hbehind : t.mq = before ++ .shutdownPoll p.1 p.2 :: (after ++ tasks) := by
      simpa using htmq
    obtain ⟨u,hu,hstale⟩ := ih hwf htphase hbehind htmiss
    exact ⟨u,(hturn.next trivial hstep).trans hu,hstale⟩

end Stale

def Owns (s : Client α) (p : Bundle × Nat) : Prop :=
  (s.find p).isSome ∧ s.connections.pool.container.count (some p.1) = 1

/-- No poll has run, or is to run, without its context. -/
structure Sound (s : Client α) : Prop where
  stale : s.stale = []
  polls : ∀ p ∈ s.polls, s.Owns p

theorem Current.sound (hc : s.Current) (hs : s.Wf) : s.Sound := by
  refine ⟨hc.stale,fun p hp => ?_⟩
  have hf := hc.polls p hp
  obtain ⟨value,hvalue⟩ := Option.isSome_iff_exists.mp hf
  refine ⟨hf,?_⟩
  rw [hs.store.owned,find_heap hvalue]
  rfl

/-- What a connect continuation destroys under a poll in the queue is dereferenced later. -/
theorem Current.lost (hc : s.Current) (hs : s.Wf) {env : TaskEnv} {p : Bundle × Nat}
    (hp : p ∈ s.polls) (hemplacing : s.emplacing = true) (hvictim : s.connections.victim = some p.1)
    (h : s.step (.loopOnce env) = some t) : ∃ u, Path Client.step Any t u ∧ u.stale ≠ [] := by
  obtain ⟨value,hvalue⟩ := Option.isSome_iff_exists.mp (hc.polls p hp)
  cases step_move h with
  | posted _ _ hne => exact absurd rfl (hne env)
  | ran _ _ _ _ hne => exact absurd rfl (hne env)
  | @resumed left task rest _ _ hphase hmq ht =>
    simp only [emplacing,hmq] at hemplacing
    split at hemplacing
    · rename_i address socket _ _ _ he
      cases he
      have ht' : connected { s with mq := rest, phase := .loop left } env = some t := ht
      have hfree := connected_free ht'
      obtain ⟨u,n,serial,hu,_,htmq,htphase,_,_,hfind⟩ :=
        (hs.popped hphase hmq).connected env (by simp) hfree
      rw [hu] at ht'
      cases ht'
      have hne : p.1 ≠ env.fresh := by
        intro he
        have halive := find_heap hvalue
        rw [he] at halive
        exact absurd (hfree.symm.trans halive) (by simp)
      have hmiss := hfind p hne
      rw [if_pos hvictim] at hmiss
      have hrest : p ∈ rest.filterMap Task.shutdownPoll? := by
        rw [popped_polls s left hmq] at hp
        exact hp
      obtain ⟨task,htask,hpoll⟩ := List.mem_filterMap.mp hrest
      have htask' : task ∈ t.mq := htmq ▸ List.mem_append_left _ htask
      obtain ⟨before,after,hmq'⟩ := List.append_of_mem htask'
      cases task with
      | shutdownPoll bundle serial =>
        cases hpoll
        exact (hs.step h).reaches_stale htphase hmq' (by simpa using hmiss)
      | connect => cases hpoll
      | user => cases hpoll
    · cases hemplacing

/-- While no connect continuation runs with a poll in the queue for a context that
could be recycled, every poll runs on a context that the pool still owns. -/
theorem deferred_polls_owned (handler : Handler) (token : Token) (s : Client α)
    (h : Path step Spares (init handler token) s) : s.Sound := by
  obtain ⟨hs,hc⟩ := h.keeps (I := fun s => s.Wf ∧ s.Current)
    (fun _ _ _ hl he hi => ⟨hi.1.step he,hi.2.step hi.1 hl he⟩)
    ⟨init_wf handler token,init_current handler token⟩
  exact hc.sound hs

def pass (fresh : List Bundle) : List (Label Unit) :=
  .loop :: fresh.map (fun bundle => .loopOnce ⟨⟨0,0⟩,bundle,none,.silent,false⟩)

def connects (fresh : List Bundle) : List (Label Unit) :=
  fresh.map (fun _ => .connect () 0) ++ (List.replicate 4 (.swap [] :: pass fresh)).flatten

def fin : EventEnv := ⟨⟨none,.silent⟩,.data [],.silent,⟨none,.silent⟩,.accepts 0,none⟩

/-- Of seventeen contexts one has a byte to write, and the continuation of an
eighteenth request is already in the queue. -/
def eighteenth (writing : Bundle) : List (Label Unit) :=
  connects (List.range 17) ++ [.user writing (.call (.send [1] (.accepts 0) none)),.connect () 0] ++
    (List.replicate 3 (.swap [] :: pass [17])).flatten

def deferring : List (Label Unit) :=
  eighteenth 0 ++ [.user 0 (.call .shutdown),.swap [(16,POLLIN)],.handleEvent fin] ++ pass [17]

/-- The continuation takes the slot of the last, and the poll for the first is still queued. -/
theorem deferred_polls_owned_deferring : ∃ s : Client Unit,
    (s.polls ≠ [] ∧ s.connections.pool.container[16]? = some (some 17)) ∧ s.Sound := by
  have hrun : (run step Spares (init .all 0) deferring).any (fun s =>
      s.polls ≠ [] ∧ s.connections.pool.container[16]? = some (some 17)) := by decide +kernel
  obtain ⟨s,hs,hcond⟩ := (Option.any_eq_true _ _).mp hrun
  exact ⟨s,of_decide_eq_true hcond,deferred_polls_owned .all 0 s (run_path hs)⟩

def overtaken : List (Label Unit) :=
  eighteenth 16 ++ [.swap [(16,POLLIN)],.handleEvent fin] ++ pass [17,17]

/-- The continuation takes its slot, and the poll behind it runs on a context that is gone. -/
theorem deferred_poll_stale : ¬∀ (handler : Handler) (token : Token) (s : Client Unit),
    Path step Any (init handler token) s → s.stale = [] := by
  intro hall
  have hrun : (run step Any (init .all 0) overtaken).any (fun s => s.stale ≠ []) := by
    decide +kernel
  obtain ⟨s,hs,hstale⟩ := (Option.any_eq_true _ _).mp hrun
  exact of_decide_eq_true hstale (hall .all 0 s (run_path hs))

end Client

end FluentNet
