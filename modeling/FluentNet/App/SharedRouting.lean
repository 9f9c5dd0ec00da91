import FluentNet.App.SharedMultiplexer
import FluentNet.Handler.Routing
import FluentNet.Library.Refinement
set_option autoImplicit false

/-! What servers that share a multiplexer do with their events is what a router does. -/

namespace FluentNet
open Throwing Runs

structure Receiver.Serves (w : Receiver) (v : Server) : Prop where
  token : w.token = v.token
  away : v.phase ≠ .handle → w.position = none ∧ w.eventBuffer = []
  handling : v.phase = .handle → ∃ n, w.position = some n ∧ n ≤ w.eventBuffer.length ∧
    w.eventBuffer.drop n = v.eventBuffer

structure ServerGroup.Routes (g : ServerGroup) (r : Router) : Prop where
  vectors : r.multiplexer.eventVectors = g.multiplexer.eventVectors
  token : r.multiplexer.token = g.multiplexer.token
  length : r.receivers.length = g.servers.length
  serves : ∀ (i : Token) (v : Server), g.servers[i]? = some v → ∃ w : Receiver, r.receivers[i]? = some w ∧ w.Serves v

theorem Receiver.Serves.pending {w : Receiver} {v : Server} (h : w.Serves v)
    (hidle : v.phase ≠ .handle → v.eventBuffer = []) :
    w.pending = v.eventBuffer := by
  by_cases hphase : v.phase = .handle
  · obtain ⟨n,hposition,_,hdrop⟩ := h.handling hphase
    simpa [Receiver.pending,hposition] using hdrop
  · obtain ⟨hposition,_⟩ := h.away hphase
    rw [hidle hphase]
    simp [Receiver.pending,hposition]

theorem Multiplexer.dispatch_vectors {m m' : Multiplexer} (h : m.eventVectors = m'.eventVectors)
    (events : List (Token × EpollEvent)) :
    (m.dispatchActiveContext events).eventVectors = (m'.dispatchActiveContext events).eventVectors := by
  induction events generalizing m m' with
  | nil => exact h
  | cons p events ih =>
    have hpush : (m.push p.1 p.2).eventVectors = (m'.push p.1 p.2).eventVectors := by
      rw [push,push,h]
    exact ih hpush

theorem Multiplexer.dispatch_token (m : Multiplexer) (events : List (Token × EpollEvent)) :
    (m.dispatchActiveContext events).token = m.token := by
  induction events generalizing m with
  | nil => rfl
  | cons p events ih => exact ih (m.push p.1 p.2)

namespace ServerGroup
variable {g t : ServerGroup} {r : Router} {i : Token} {v v' : Server} {w w' : Receiver}

theorem init_routes : init.Routes Router.init := ⟨rfl,rfl,rfl,by simp [init]⟩

theorem Routes.put (hr : g.Routes r) (hv : g.servers[i]? = some v) (hv' : v'.token = i)
    (hserves : w'.Serves v') : (g.put v').Routes (r.put w') := by
  have hw' : w'.token = i := hserves.token.trans hv'
  refine ⟨hr.vectors,hr.token,by simpa [ServerGroup.put,Router.put] using hr.length,fun j u hu => ?_⟩
  rw [put_servers hv hv'] at hu
  by_cases hij : i = j
  · subst hij
    rw [if_pos rfl] at hu
    cases hu
    obtain ⟨w,hw,_⟩ := hr.serves i v hv
    have hlt : i < r.receivers.length := (List.getElem?_eq_some_iff.mp hw).1
    exact ⟨w',by simp [Router.put,hw',hlt],hserves⟩
  · rw [if_neg hij] at hu
    obtain ⟨x,hx,hserves'⟩ := hr.serves j u hu
    exact ⟨x,by simpa [Router.put,hw',hij] using hx,hserves'⟩

theorem Routes.keep (hr : g.Routes r) (hv : g.servers[i]? = some v) (hi : v.token = i) (hv' : v'.token = i)
    (hphase : v.phase ≠ .handle ∧ v'.phase ≠ .handle ∨ v'.phase = v.phase ∧ v'.eventBuffer = v.eventBuffer) :
    (g.put v').Routes r := by
  refine ⟨hr.vectors,hr.token,by simpa [ServerGroup.put] using hr.length,fun j u hu => ?_⟩
  rw [put_servers hv hv'] at hu
  by_cases hij : i = j
  · subst hij
    rw [if_pos rfl] at hu
    cases hu
    obtain ⟨w,hw,htoken,haway,hhandling⟩ := hr.serves i v hv
    refine ⟨w,hw,htoken.trans (hi.trans hv'.symm),fun hp => ?_,fun hp => ?_⟩
    · rcases hphase with ⟨hold,_⟩ | ⟨hsame,_⟩
      · exact haway hold
      · exact haway (hsame ▸ hp)
    · rcases hphase with ⟨_,hnew⟩ | ⟨hsame,hbuffer⟩
      · exact absurd hp hnew
      · rw [hbuffer]
        exact hhandling (hsame ▸ hp)
  · rw [if_neg hij] at hu
    exact hr.serves j u hu

section Dispatch

theorem dispatch_tokens (events : List EpollEvent) (hg : g.Wf) (h : ∀ e ∈ events, (g.find e).isSome) :
    ∃ tagged : List (Token × EpollEvent), (∀ p ∈ tagged, p.1 < g.multiplexer.token) ∧
      (events.foldl dispatchEvent g).multiplexer = g.multiplexer.dispatchActiveContext tagged := by
  induction events generalizing g with
  | nil => exact ⟨[],by simp,rfl⟩
  | cons e events ih =>
    obtain ⟨he,hrest⟩ := List.forall_mem_cons.mp h
    obtain ⟨value,hvalue⟩ := Option.isSome_iff_exists.mp he
    have hone : g.dispatchEvent e = { g with multiplexer := g.multiplexer.push value.token e } := by
      simp [dispatchEvent,hvalue]
    have hlt : value.token < g.multiplexer.token := by
      obtain ⟨u,hu,hfind⟩ := List.exists_of_findSome?_eq_some hvalue
      obtain ⟨j,hj⟩ := List.mem_iff_getElem?.mp hu
      rw [(hg.server j u hj).values _ value (Server.find_heap hfind),hg.token]
      exact (List.getElem?_eq_some_iff.mp hj).1
    have hlater : ∀ e' ∈ events, ((g.dispatchEvent e).find e').isSome := by
      rw [hone]
      exact hrest
    have hwf : (g.dispatchEvent e).Wf := hg.dispatch [e]
    obtain ⟨tagged,htagged,hmultiplexer⟩ := ih hwf hlater
    refine ⟨(value.token,e) :: tagged,List.forall_mem_cons.mpr ⟨hlt,?_⟩,?_⟩
    · rwa [hone] at htagged
    · rw [List.foldl_cons,hmultiplexer,hone]
      rfl

theorem Routes.dispatch (hr : g.Routes r) (hg : g.Wf) (ht : g.dispatchActiveContext.stale = []) :
    ∃ r', Path Router.step Any r r' ∧ g.dispatchActiveContext.Routes r' := by
  have hg' : ServerGroup.Wf { g with multiplexer.events := [] } := hg.of_servers rfl rfl rfl
  obtain ⟨hservers,_,_,_,hstale⟩ := dispatch_frame g.multiplexer.events { g with multiplexer.events := [] }
  have hfound : ∀ e ∈ g.multiplexer.events,
      (ServerGroup.find { g with multiplexer.events := [] } e).isSome := by
    intro e he
    by_contra hnone
    have hnil := (List.append_eq_nil_iff.mp (hstale.symm.trans ht)).2
    have hmem : e ∈ g.multiplexer.events.filter
        (fun e => (ServerGroup.find { g with multiplexer.events := [] } e).isNone) :=
      List.mem_filter.mpr ⟨he,by simpa using hnone⟩
    rw [hnil] at hmem
    cases hmem
  obtain ⟨tagged,htagged,hmultiplexer⟩ := dispatch_tokens g.multiplexer.events hg' hfound
  have hallowed : ∀ p ∈ tagged, p.1 < r.multiplexer.token := by
    rw [hr.token]
    exact htagged
  have hstep : r.step (.dispatch tagged) = some { r with
      multiplexer := r.multiplexer.dispatchActiveContext tagged
      dispatched := r.dispatched ++ tagged } := if_pos hallowed
  refine ⟨_,Path.next .refl trivial hstep,?_⟩
  have hvectors : r.multiplexer.eventVectors =
      (ServerGroup.multiplexer { g with multiplexer.events := [] }).eventVectors := hr.vectors
  refine ⟨?_,?_,?_,fun i v hv => ?_⟩
  · rw [dispatchActiveContext,hmultiplexer]
    exact Multiplexer.dispatch_vectors hvectors tagged
  · rw [dispatchActiveContext,hmultiplexer]
    have htoken : r.multiplexer.token =
        (ServerGroup.multiplexer { g with multiplexer.events := [] }).token := hr.token
    exact (Multiplexer.dispatch_token _ _).trans (htoken.trans (Multiplexer.dispatch_token _ _).symm)
  · rw [dispatchActiveContext,hservers]
    exact hr.length
  · rw [dispatchActiveContext,hservers] at hv
    exact hr.serves i v hv

end Dispatch

section Steps

theorem stale_grows {l : Label} (hg : g.Wf) (h : g.step l = some t) (ht : t.stale = []) : g.stale = [] := by
  cases step_move hg h with
  | server handler => exact ht
  | epollWait hr => exact ht
  | dispatch =>
    obtain ⟨_,_,_,_,hstale⟩ := dispatch_frame g.multiplexer.events { g with multiplexer.events := [] }
    exact (List.append_eq_nil_iff.mp (hstale.symm.trans ht)).1
  | accept hv hphase hfree he =>
    obtain ⟨v',hput,_⟩ := emplace_cases hg hv hphase hfree
    rw [hput] at he
    cases he
    exact ht
  | swap hv hphase => exact ht
  | turn hl hv hs => exact ht
  | miss env hv hphase hbuffer hmiss => exact (List.append_eq_nil_iff.mp ht).1

theorem Routes.server (hr : g.Routes r) (handler : Handler) :
    ∃ r', Path Router.step Any r r' ∧ Routes { g with
      multiplexer := g.multiplexer.newToken.2
      servers := g.servers ++ [.init handler g.multiplexer.token] } r' := by
  refine ⟨_,Path.next .refl (l := .token) trivial rfl,?_,?_,?_,fun i v hv => ?_⟩
  · simp [hr.vectors,Multiplexer.newToken]
  · simp [hr.token,Multiplexer.newToken]
  · simp [hr.length]
  · rcases newest_or_old hv with hold | ⟨rfl,rfl⟩
    · obtain ⟨w,hw,hserves⟩ := hr.serves i v hold
      exact ⟨w,(List.getElem?_append_left (List.getElem?_eq_some_iff.mp hw).1).trans hw,hserves⟩
    · refine ⟨⟨r.multiplexer.token,[],none⟩,?_,hr.token,fun _ => ⟨rfl,rfl⟩,fun hp => by cases hp⟩
      rw [← hr.length]
      exact List.getElem?_concat_length

theorem Routes.swap (hr : g.Routes r) (hg : g.Wf) (hv : g.servers[i]? = some v) (hphase : v.phase = .swap) :
    ∃ r', Path Router.step Any r r' ∧ Routes { g.put (v.take (g.multiplexer.visit i)) with
      multiplexer := g.multiplexer.leave i v.eventBuffer } r' := by
  obtain ⟨w,hw,hserves⟩ := hr.serves i v hv
  obtain ⟨hposition,hbuffer⟩ := hserves.away (by simp [hphase])
  have hidle : v.eventBuffer = [] := (hg.server i v hv).idle (by simp [hphase])
  let w' : Receiver := { w with eventBuffer := r.multiplexer.visit i, position := some 0 }
  have hstep : r.step (.swap i) = some { r.put w' with multiplexer := r.multiplexer.leave i w.eventBuffer } := by
    simp [Router.step,hw,hposition,w']
  have hvisit : r.multiplexer.visit i = g.multiplexer.visit i := by
    rw [Multiplexer.visit,Multiplexer.visit,hr.vectors]
  have hserves' : w'.Serves (v.take (g.multiplexer.visit i)) :=
    ⟨hserves.token,fun hp => absurd rfl hp,fun _ => ⟨0,rfl,Nat.zero_le _,hvisit⟩⟩
  have hi : (v.take (g.multiplexer.visit i)).token = i := (hg.server i v hv).token
  obtain ⟨_,_,h3,h4⟩ := hr.put hv hi hserves'
  refine ⟨_,Path.next .refl trivial hstep,?_,hr.token,h3,h4⟩
  simp [Multiplexer.leave,hr.vectors,hbuffer,hidle]

/-- A receiver that has read the first of its events is where a server is that has taken
it out of its buffer. -/
theorem Routes.read {e : EpollEvent} {rest : List EpollEvent} (hr : g.Routes r) (hv : g.servers[i]? = some v)
    (hi : v.token = i) (hphase : v.phase = .handle) (hbuffer : v.eventBuffer = e :: rest)
    (htoken : v'.token = i) (hphase' : v'.phase = .handle) (hbuffer' : v'.eventBuffer = rest) :
    ∃ r', Path Router.step Any r r' ∧ (g.put v').Routes r' := by
  obtain ⟨w,hw,hserves⟩ := hr.serves i v hv
  obtain ⟨n,hposition,hle,hdrop⟩ := hserves.handling hphase
  rw [hbuffer] at hdrop
  have hlt : n < w.eventBuffer.length := by
    by_contra hend
    rw [List.drop_eq_nil_of_le (by omega)] at hdrop
    cases hdrop
  rw [List.drop_eq_getElem_cons hlt] at hdrop
  obtain ⟨_,hrest⟩ := List.cons.inj hdrop
  have hstep : r.step (.handleEvent i none) = some (r.handleEvent w n w.eventBuffer[n] none) := by
    simp [Router.step,hw,hposition,hlt]
  have hserves' : Receiver.Serves { w with position := some (n+1) } v' :=
    ⟨hserves.token.trans (hi.trans htoken.symm),fun hp => absurd hphase' hp,
      fun _ => ⟨n+1,rfl,hlt,hrest.trans hbuffer'.symm⟩⟩
  obtain ⟨h1,h2,h3,h4⟩ := hr.put hv htoken hserves'
  exact ⟨_,Path.next .refl trivial hstep,h1,h2,h3,h4⟩

theorem Routes.clear (hr : g.Routes r) (hv : g.servers[i]? = some v) (hi : v.token = i)
    (hphase : v.phase = .handle) (hbuffer : v.eventBuffer = []) :
    ∃ r', Path Router.step Any r r' ∧ (g.put v.loop).Routes r' := by
  obtain ⟨w,hw,hserves⟩ := hr.serves i v hv
  obtain ⟨n,hposition,hle,hdrop⟩ := hserves.handling hphase
  rw [hbuffer,List.drop_eq_nil_iff] at hdrop
  obtain rfl : n = w.eventBuffer.length := Nat.le_antisymm hle hdrop
  have hstep : r.step (.clear i) = some (r.put { w with eventBuffer := [], position := none }) := by
    simp [Router.step,hw,hposition]
  refine ⟨_,Path.next .refl trivial hstep,hr.put hv hi ⟨hserves.token,fun _ => ⟨rfl,rfl⟩,fun hp => ?_⟩⟩
  cases hp

theorem Routes.step {l : Label} (hr : g.Routes r) (hg : g.Wf) (h : g.step l = some t) (ht : t.stale = []) :
    ∃ r', Path Router.step Any r r' ∧ t.Routes r' := by
  cases l with
  | server handler =>
    cases h
    exact hr.server handler
  | epollWait ready =>
    simp only [ServerGroup.step] at h
    split at h
    · cases h
      exact ⟨r,.refl,hr.vectors,hr.token,hr.length,hr.serves⟩
    · cases h
  | dispatch =>
    cases h
    exact hr.dispatch hg ht
  | accept i fresh =>
    obtain ⟨v,hv,h⟩ := Option.bind_eq_some_iff.mp h
    have hi := (hg.server i v hv).token
    split at h
    · rename_i hphase
      cases fresh with
      | none =>
        cases h
        exact ⟨r,.refl,hr.keep hv hi hi (.inl ⟨by simp [hphase],by simp⟩)⟩
      | some fresh =>
        dsimp only at h
        split at h
        · rename_i hfree
          obtain ⟨v',hput,hwf,_,hphase',_⟩ := emplace_cases hg hv hphase hfree
          rw [hput] at h
          cases h
          obtain ⟨h1,h2,h3,h4⟩ := hr.keep hv hi hwf.token (.inl ⟨by simp [hphase],by simp [hphase']⟩)
          exact ⟨r,.refl,h1,h2,h3,h4⟩
        · cases h
    · cases h
  | newContext i ctl cb =>
    obtain ⟨v,hv,h⟩ := Option.bind_eq_some_iff.mp h
    have hi := (hg.server i v hv).token
    split at h
    · rename_i bundle hphase
      obtain ⟨value,hvalue,h⟩ := Option.bind_eq_some_iff.mp h
      cases h
      exact ⟨r,.refl,hr.keep hv hi hi (.inl ⟨by simp [hphase],by simp⟩)⟩
    · cases h
  | swap i =>
    obtain ⟨v,hv,h⟩ := Option.bind_eq_some_iff.mp h
    split at h
    · rename_i hphase
      cases h
      exact hr.swap hg hv hphase
    · cases h
  | handleEvent i env =>
    obtain ⟨v,hv,h⟩ := Option.bind_eq_some_iff.mp h
    have hi := (hg.server i v hv).token
    split at h
    · rename_i hphase
      simp only [ServerGroup.handleEvent] at h
      split at h
      · cases h
      · rename_i e rest hbuffer
        split at h
        · rename_i value hfind
          cases h
          exact hr.read hv hi hphase hbuffer hi rfl rfl
        · cases h
          have hi' : (v.take rest).token = i := hi
          obtain ⟨r',hr',h1,h2,h3,h4⟩ := hr.read hv hi hphase hbuffer hi' rfl rfl
          exact ⟨r',hr',h1,h2,h3,h4⟩
    · cases h
  | loop i =>
    obtain ⟨v,hv,h⟩ := Option.bind_eq_some_iff.mp h
    split at h
    · rename_i hend
      cases h
      exact hr.clear hv (hg.server i v hv).token hend.1 hend.2
    · cases h
  | user i bundle act =>
    obtain ⟨v,hv,h⟩ := Option.bind_eq_some_iff.mp h
    have hi := (hg.server i v hv).token
    obtain ⟨value,hvalue,h⟩ := Option.bind_eq_some_iff.mp h
    cases h
    exact ⟨r,.refl,hr.keep hv hi hi (.inr ⟨rfl,rfl⟩)⟩

end Steps

/-- As long as no event was met stale, what the servers did with their events is a run of a
router: those that were dispatched to a server were handled by it, are in its buffer or in
its vector, in the order of dispatch. -/
theorem group_routed (hg : Path step Any init g) (hs : g.stale = []) :
    ∃ r, Path Router.step Any Router.init r ∧ g.Routes r ∧ ∀ i v, g.servers[i]? = some v →
      eventsOf i r.dispatched = eventsOf i r.handled ++ v.eventBuffer ++ g.multiplexer.visit i := by
  obtain ⟨r,hr,hwf,hroutes⟩ := Path.simulated
    (R := fun g r => ServerGroup.Wf g ∧ (g.stale = [] → g.Routes r))
    (fun g l t r _ hstep hR => by
      have hwf := hR.1.step hstep
      by_cases ht : t.stale = []
      · obtain ⟨r',hr',hroutes⟩ := (hR.2 (stale_grows hR.1 hstep ht)).step hR.1 hstep ht
        exact ⟨r',hr',hwf,fun _ => hroutes⟩
      · exact ⟨r,.refl,hwf,fun h => absurd h ht⟩)
    hg ⟨init_wf,fun _ => init_routes⟩
  have hroutes := hroutes hs
  have haccounted := Router.path_accounted hr Router.init_wf Router.init_accounted
  refine ⟨r,hr,hroutes,fun i v hv => ?_⟩
  obtain ⟨w,hw,hserves⟩ := hroutes.serves i v hv
  have hpending : r.pending i = v.eventBuffer := by
    rw [Router.pending,hw]
    exact hserves.pending (hwf.server i v hv).idle
  have hvisit : r.multiplexer.visit i = g.multiplexer.visit i := by
    rw [Multiplexer.visit,Multiplexer.visit,hroutes.vectors]
  rw [haccounted.2 i,hpending,hvisit]

end ServerGroup

end FluentNet
