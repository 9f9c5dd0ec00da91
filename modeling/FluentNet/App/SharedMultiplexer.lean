import FluentNet.App.Server
import FluentNet.Network.PoolSafety
set_option autoImplicit false

/-! When an event that is on its way to a server still has its context. -/

namespace FluentNet
open Throwing Runs

/-- The context that the next emplace destroys. -/
def Store.victim (s : Store) : Option Bundle := do
  let p ← s.pool.collect s.heap
  if p.reusableIndex ≠ p.container.length then do
    let slot ← WeakReference.get p.container p.reusableIndex
    if Pool.isReusable s.heap slot then slot else none
  else none

theorem Store.Wf.emplace_heap {s : Store} (hs : s.Wf) (token : Token) {fresh : Bundle}
    (hfresh : s.heap fresh = none) : ∃ t, s.emplace token fresh = some t ∧ t.Wf ∧
      ∀ b, t.heap b = if s.victim = some b then none
        else if b = fresh then some ⟨token,Conn.init⟩ else s.heap b := by
  obtain ⟨t,ht,hwf,_⟩ := hs.emplace token hfresh
  refine ⟨t,ht,hwf,?_⟩
  obtain ⟨q,hq,hw,hperm⟩ := Pool.collect_wf s.heap hs.window
  have hnot : q.container.count (some fresh) = 0 := by
    rw [hperm.count_eq,hs.owned fresh]
    simp [hfresh]
  have hplace : Store.place q s.heap fresh ⟨token,Conn.init⟩ = some t := by
    simpa [Store.emplace,hq] using ht
  obtain ⟨h1,h2,h3,h4,h5⟩ := hw
  rcases Store.place_cases s.heap ⟨token,Conn.init⟩ ⟨h1,h2,h3,h4,h5⟩ hnot with
    ⟨hlt,hidx,hre,he⟩ | ⟨htaken,he⟩ <;> rw [he] at hplace <;> cases hplace
  · have hget := WeakReference.get_of_lt q.container (by omega) hlt
    have hvictim : s.victim = q.container[q.reusableIndex.toNat] := by
      have hne : q.reusableIndex ≠ q.container.length := by omega
      simp [Store.victim,hq,hne,hget,hre]
    intro b
    rw [hvictim]
    exact Heap.destroy_apply _ _ b
  · have hvictim : s.victim = none := by
      by_cases hend : q.reusableIndex = q.container.length
      · simp [Store.victim,hq,hend]
      · have hlt : q.reusableIndex.toNat < q.container.length := by omega
        have hget := WeakReference.get_of_lt q.container (by omega) hlt
        simp [Store.victim,hq,hend,hget,htaken hlt]
    intro b
    simp [hvictim,Heap.set]

theorem Store.Wf.victim_alive {s : Store} (hs : s.Wf) {b : Bundle} (hb : s.victim = some b) :
    (s.heap b).isSome := by
  obtain ⟨q,hq,hw,hperm⟩ := Pool.collect_wf s.heap hs.window
  simp only [Store.victim,hq,Option.bind_eq_bind,Option.bind_some] at hb
  split at hb
  · rename_i hend
    obtain ⟨h1,h2,h3,h4,_⟩ := hw
    have hlt : q.reusableIndex.toNat < q.container.length := by omega
    rw [WeakReference.get_of_lt q.container (by omega) hlt,Option.bind_some] at hb
    split at hb
    · have hmem : some b ∈ q.container := hb ▸ List.getElem_mem hlt
      exact hs.owner (hperm.mem_iff.mp hmem)
    · cases hb
  · cases hb

theorem Store.victim_reusable {s : Store} {b : Bundle} (hb : s.victim = some b) :
    Pool.isReusable s.heap (some b) = true := by
  obtain ⟨q,_,hb⟩ := Option.bind_eq_some_iff.mp hb
  split at hb
  · obtain ⟨slot,_,hb⟩ := Option.bind_eq_some_iff.mp hb
    split at hb
    · rename_i hre
      exact hb ▸ hre
    · cases hb
  · cases hb

theorem Store.Wf.victim_ne {s : Store} (hs : s.Wf) {fresh : Bundle} (hfree : s.heap fresh = none) :
    s.victim ≠ some fresh := by
  intro he
  have halive := hs.victim_alive he
  simp [hfree] at halive

structure Server.Same (v v' : Server) : Prop where
  token : v'.token = v.token
  pool : v'.connections.pool = v.connections.pool
  tokens : ∀ b, (v'.connections.heap b).map BundleValue.token =
    (v.connections.heap b).map BundleValue.token

section Same
variable {v v' : Server}

theorem Server.Same.alive (h : v.Same v') (b : Bundle) :
    (v'.connections.heap b).isSome = (v.connections.heap b).isSome := by
  rw [← Option.isSome_map,h.tokens b,Option.isSome_map]

theorem Server.Same.find (h : v.Same v') (born : Bundle → Nat) (e : EpollEvent) :
    (v'.find born e).isSome = (v.find born e).isSome := by
  simp only [Server.find]
  split
  · exact h.alive e.bundle
  · rfl

theorem Server.Same.miss (h : v.Same v') {born : Bundle → Nat} {e : EpollEvent}
    (hmiss : v.find born e = none) : v'.find born e = none := by
  have hf := h.find born e
  rw [hmiss] at hf
  simpa using hf

theorem Server.withContext_same {bundle : Bundle} {value : BundleValue}
    (h : v.connections.heap bundle = some value) (context : Conn) :
    v.Same (v.withContext bundle value context) := by
  refine ⟨rfl,rfl,fun b => ?_⟩
  by_cases hb : b = bundle
  · simp [Server.withContext,hb,h]
  · simp [Server.withContext,Heap.set_other hb]

theorem Server.take_same (v : Server) (events : List EpollEvent) : v.Same (v.take events) :=
  ⟨rfl,rfl,fun _ => rfl⟩

theorem Server.loop_same (v : Server) : v.Same v.loop := by
  refine ⟨rfl,rfl,fun b => ?_⟩
  simp [Server.loop,Function.comp_def]

theorem Server.find_heap {born : Bundle → Nat} {e : EpollEvent} {value : BundleValue}
    (h : v.find born e = some value) : v.connections.heap e.bundle = some value := by
  simp only [Server.find] at h
  split at h
  · exact h
  · cases h

end Same

structure Server.Wf (v : Server) (i : Token) : Prop where
  token : v.token = i
  store : v.connections.Wf
  values : ∀ b value, v.connections.heap b = some value → value.token = i
  idle : v.phase ≠ .handle → v.eventBuffer = []
  entering : ∀ b, v.phase = .newContext b → (v.connections.heap b).isSome

theorem Server.Wf.same {v v' : Server} {i : Token} (hv : v.Wf i) (h : v.Same v')
    (hidle : v'.phase ≠ .handle → v'.eventBuffer = [])
    (hentering : ∀ b, v'.phase = .newContext b → v.phase = .newContext b) : v'.Wf i := by
  refine ⟨h.token.trans hv.token,?_,fun b value hb => ?_,hidle,fun b hb => ?_⟩
  · have hstore := hv.store.changed h.alive
    rwa [← h.pool] at hstore
  · have htokens := h.tokens b
    rw [hb] at htokens
    obtain ⟨value',hb',ht⟩ := Option.map_eq_some_iff.mp htokens.symm
    exact ht ▸ hv.values b value' hb'
  · rw [h.alive]
    exact hv.entering b (hentering b hb)

structure ServerGroup.Wf (g : ServerGroup) : Prop where
  server : ∀ i v, g.servers[i]? = some v → Server.Wf v i
  apart : ∀ (i j : Token) (v w : Server) b, g.servers[i]? = some v → g.servers[j]? = some w →
    (v.connections.heap b).isSome → (w.connections.heap b).isSome → i = j
  token : g.multiplexer.token = g.servers.length
  vectors : g.multiplexer.eventVectors.length = g.servers.length

def ServerGroup.Has (g : ServerGroup) (e : EpollEvent) : Prop :=
  ∃ (i : Token) (v : Server), g.servers[i]? = some v ∧ (v.find g.born e).isSome

structure ServerGroup.Current (g : ServerGroup) : Prop where
  polled : ∀ e ∈ g.multiplexer.events, g.Has e
  pending : ∀ i v, g.servers[i]? = some v → ∀ e, e ∈ g.multiplexer.visit i ∨ e ∈ v.eventBuffer →
    (Server.find v g.born e).isSome
  stale : g.stale = []

namespace ServerGroup
variable {g : ServerGroup} {i : Token} {v v' : Server}

theorem find_has (g : ServerGroup) (e : EpollEvent) : (g.find e).isSome = true ↔ g.Has e := by
  simp only [find,List.findSome?_isSome_iff,Has]
  refine ⟨fun ⟨v,hv,he⟩ => ?_,fun ⟨i,v,hv,he⟩ => ⟨v,List.mem_of_getElem? hv,he⟩⟩
  obtain ⟨i,hi⟩ := List.mem_iff_getElem?.mp hv
  exact ⟨i,v,hi,he⟩

section Put

theorem put_servers (h : g.servers[i]? = some v) (hv : v'.token = i) (j : Nat) :
    (g.put v').servers[j]? = if i = j then some v' else g.servers[j]? := by
  have hlt : i < g.servers.length := (List.getElem?_eq_some_iff.mp h).1
  by_cases hij : i = j
  · simp [put,hv,← hij,hlt]
  · simp [put,hv,hij]

theorem put_self (h : g.servers[i]? = some v) (hv : v'.token = i) :
    (g.put v').servers[i]? = some v' := by
  rw [put_servers h hv,if_pos rfl]

theorem Wf.put (hg : g.Wf) (h : g.servers[i]? = some v) (hv : v'.Wf i)
    (halive : ∀ b, (v'.connections.heap b).isSome → (v.connections.heap b).isSome ∨ g.Free b) :
    (g.put v').Wf := by
  have hat := put_servers h hv.token
  have hfree : ∀ (j : Nat) (w : Server) b, g.servers[j]? = some w →
      (w.connections.heap b).isSome → ¬g.Free b := by
    intro j w b hw hb hf
    simp [hf w (List.mem_of_getElem? hw)] at hb
  refine ⟨fun j w hw => ?_,fun j k w u b hw hu hb hc => ?_,?_,?_⟩
  · rw [hat] at hw
    split at hw
    · rename_i hij
      cases hw
      exact hij ▸ hv
    · exact hg.server j w hw
  · rw [hat] at hw hu
    split at hw <;> split at hu
    · rename_i hij hik
      exact hij.symm.trans hik
    · rename_i hij _
      cases hw
      rcases halive b hb with hold | hf
      · exact hij.symm.trans (hg.apart i k v u b h hu hold hc)
      · exact absurd hf (hfree k u b hu hc)
    · rename_i _ hik
      cases hu
      rcases halive b hc with hold | hf
      · exact (hg.apart j i w v b hw h hb hold).trans hik
      · exact absurd hf (hfree j w b hw hb)
    · exact hg.apart j k w u b hw hu hb hc
  · simpa [ServerGroup.put] using hg.token
  · simpa [ServerGroup.put] using hg.vectors

theorem Wf.put_same (hg : g.Wf) (h : g.servers[i]? = some v) (hs : v.Same v')
    (hidle : v'.phase ≠ .handle → v'.eventBuffer = [])
    (hentering : ∀ b, v'.phase = .newContext b → v.phase = .newContext b) : (g.put v').Wf :=
  hg.put h ((hg.server i v h).same hs hidle hentering) (fun b hb => .inl (hs.alive b ▸ hb))

theorem Wf.put_take (hg : g.Wf) (h : g.servers[i]? = some v) (events : List EpollEvent) :
    (g.put (v.take events)).Wf :=
  hg.put_same h (v.take_same events) (fun hp => absurd rfl hp) (fun _ hb => nomatch hb)

theorem Has.put (h : g.servers[i]? = some v) (ht : v'.token = i) {e : EpollEvent}
    (hkeep : (v.find g.born e).isSome → (v'.find g.born e).isSome) (he : g.Has e) :
    (g.put v').Has e := by
  obtain ⟨j,w,hw,hf⟩ := he
  by_cases hij : i = j
  · subst hij
    obtain rfl := Option.some.inj (h.symm.trans hw)
    exact ⟨i,v',put_self h ht,hkeep hf⟩
  · exact ⟨j,w,by rw [put_servers h ht,if_neg hij]; exact hw,hf⟩

theorem Current.put_same (hc : g.Current) (hg : g.Wf) (h : g.servers[i]? = some v) (hs : v.Same v')
    (hbuffer : ∀ e ∈ v'.eventBuffer, e ∈ v.eventBuffer) : (g.put v').Current := by
  have ht : v'.token = i := hs.token.trans (hg.server i v h).token
  refine ⟨fun e he => (hc.polled e he).put h ht (fun hf => (hs.find g.born e).trans hf),
    fun j w hw e he => ?_,hc.stale⟩
  rw [put_servers h ht] at hw
  split at hw
  · rename_i hij
    subst hij
    cases hw
    have hf := hc.pending i v h e (he.imp_right (hbuffer e))
    exact (hs.find g.born e).trans hf
  · exact hc.pending j w hw e he

end Put

section Dispatch

theorem dispatch_frame (events : List EpollEvent) (g : ServerGroup) :
    (events.foldl dispatchEvent g).servers = g.servers ∧
    (events.foldl dispatchEvent g).born = g.born ∧
    (events.foldl dispatchEvent g).multiplexer.token = g.multiplexer.token ∧
    (events.foldl dispatchEvent g).multiplexer.eventVectors.length =
      g.multiplexer.eventVectors.length ∧
    (events.foldl dispatchEvent g).stale = g.stale ++ events.filter (fun e => (g.find e).isNone) := by
  induction events generalizing g with
  | nil => simp
  | cons e events ih =>
    obtain ⟨h1,h2,h3,h4,h5⟩ := ih (g.dispatchEvent e)
    have hone : (g.dispatchEvent e).servers = g.servers ∧ (g.dispatchEvent e).born = g.born ∧
        (g.dispatchEvent e).multiplexer.token = g.multiplexer.token ∧
        (g.dispatchEvent e).multiplexer.eventVectors.length = g.multiplexer.eventVectors.length ∧
        (g.dispatchEvent e).stale = g.stale ++ if (g.find e).isNone then [e] else [] := by
      simp only [dispatchEvent]
      cases g.find e <;> simp
    obtain ⟨k1,k2,k3,k4,k5⟩ := hone
    have hfind : (fun e' => ((g.dispatchEvent e).find e').isNone) = fun e' => (g.find e').isNone := by
      funext e'
      simp only [find,k1,k2]
    simp only [List.foldl_cons]
    refine ⟨h1.trans k1,h2.trans k2,h3.trans k3,h4.trans k4,?_⟩
    rw [h5,k5,hfind,List.filter_cons]
    split <;> simp

theorem Current.dispatchEvent (hc : g.Current) (hg : g.Wf) {e : EpollEvent} (he : g.Has e) :
    (g.dispatchEvent e).Current := by
  obtain ⟨value,hvalue⟩ := Option.isSome_iff_exists.mp ((find_has g e).mpr he)
  simp only [ServerGroup.dispatchEvent,hvalue]
  refine ⟨hc.polled,fun j w hw e' he' => ?_,hc.stale⟩
  rcases he' with he' | he'
  · rcases Multiplexer.mem_visit_push he' with he' | ⟨hj,rfl⟩
    · exact hc.pending j w hw e' (.inl he')
    · -- the token in the pair is that of the server that has it
      obtain ⟨u,hu,hfind⟩ := List.exists_of_findSome?_eq_some hvalue
      obtain ⟨k,hk⟩ := List.mem_iff_getElem?.mp hu
      have htoken := (hg.server k u hk).values _ value (Server.find_heap hfind)
      obtain rfl : k = j := htoken.symm.trans hj
      obtain rfl := Option.some.inj (hk.symm.trans hw)
      simp [hfind]
  · exact hc.pending j w hw e' (.inr he')

theorem Wf.of_servers (hg : g.Wf) {g' : ServerGroup} (hs : g'.servers = g.servers)
    (ht : g'.multiplexer.token = g.multiplexer.token)
    (hv : g'.multiplexer.eventVectors.length = g.multiplexer.eventVectors.length) : g'.Wf := by
  refine ⟨?_,?_,?_,?_⟩
  · rw [hs]
    exact hg.server
  · rw [hs]
    exact hg.apart
  · rw [ht,hs]
    exact hg.token
  · rw [hv,hs]
    exact hg.vectors

theorem Wf.dispatch (hg : g.Wf) (events : List EpollEvent) : (events.foldl dispatchEvent g).Wf := by
  obtain ⟨hs,_,ht,hv,_⟩ := dispatch_frame events g
  exact hg.of_servers hs ht hv

theorem Current.dispatch (hc : g.Current) (hg : g.Wf) (events : List EpollEvent)
    (he : ∀ e ∈ events, g.Has e) : (events.foldl ServerGroup.dispatchEvent g).Current := by
  induction events generalizing g with
  | nil => exact hc
  | cons e events ih =>
    obtain ⟨hs,hb,_⟩ := dispatch_frame [e] g
    refine ih (hc.dispatchEvent hg (he e (by simp))) (hg.dispatch [e]) (fun e' he' => ?_)
    obtain ⟨i,v,hv,hf⟩ := he e' (by simp [he'])
    refine ⟨i,v,?_,?_⟩
    · exact (congrArg (fun servers => servers[i]?) hs).trans hv
    · exact (congrArg (fun born => (v.find born e').isSome) hb).trans hf

end Dispatch

section Accept

theorem emplace_cases (hg : g.Wf) (h : g.servers[i]? = some v) (hphase : v.phase = .accept)
    {fresh : Bundle} (hfree : g.Free fresh) :
    ∃ v', g.emplace v fresh = some { g.put v' with
        born := fun b => if b = fresh then g.born b+1 else g.born b } ∧
      v'.Wf i ∧ v'.eventBuffer = [] ∧ v'.phase = .newContext fresh ∧
      ∀ b, (v'.connections.heap b).isSome = if v.connections.victim = some b then false
        else if b = fresh then true else (v.connections.heap b).isSome := by
  have hv := hg.server i v h
  have hbuffer : v.eventBuffer = [] := hv.idle (by simp [hphase])
  have hnone := hfree v (List.mem_of_getElem? h)
  obtain ⟨s,hs,hwf,hheap⟩ := hv.store.emplace_heap v.token hnone
  have hspared := hv.store.victim_ne hnone
  refine ⟨{ v with connections := s, phase := .newContext fresh },by simp [emplace,hs],
    ⟨hv.token,hwf,fun b value hb => ?_,fun _ => hbuffer,fun b hb => ?_⟩,hbuffer,rfl,fun b => ?_⟩
  · dsimp only at hb
    rw [hheap] at hb
    split at hb
    · cases hb
    · split at hb
      · cases hb
        exact hv.token
      · exact hv.values b value hb
  · cases hb
    simp [hheap,hspared]
  · simp only [hheap]
    split
    · rfl
    · split <;> rfl

theorem Current.emplace (hc : g.Current) (h : g.servers[i]? = some v)
    {fresh : Bundle} (hfree : g.Free fresh) (ht : v'.token = i) (hbuffer : v'.eventBuffer = [])
    (hheap : ∀ b, (v'.connections.heap b).isSome = if v.connections.victim = some b then false
        else if b = fresh then true else (v.connections.heap b).isSome)
    (hspares : ∀ e ∈ g.multiplexer.events ++ g.multiplexer.visit i,
      v.connections.victim ≠ some e.bundle) :
    ServerGroup.Current { g.put v' with
      born := fun b => if b = fresh then g.born b+1 else g.born b } := by
  have hborn : ∀ (j : Nat) (w u : Server) e, g.servers[j]? = some w → (w.find g.born e).isSome →
      u.find (fun b => if b = fresh then g.born b+1 else g.born b) e = u.find g.born e := by
    intro j w u e hw hf
    obtain ⟨value,hvalue⟩ := Option.isSome_iff_exists.mp hf
    have hne : e.bundle ≠ fresh := by
      intro he
      have hheap := Server.find_heap hvalue
      rw [he,hfree w (List.mem_of_getElem? hw)] at hheap
      cases hheap
    simp [Server.find,hne]
  have hkeep : ∀ e ∈ g.multiplexer.events ++ g.multiplexer.visit i,
      (v.find g.born e).isSome → (v'.find g.born e).isSome := by
    intro e he hf
    simp only [Server.find] at hf ⊢
    split at hf
    · rename_i hb
      rw [if_pos hb,hheap,if_neg (hspares e he)]
      split
      · rfl
      · exact hf
    · cases hf
  have hat := put_servers h ht
  refine ⟨fun e he => ?_,fun j w hw e he => ?_,hc.stale⟩
  · obtain ⟨k,u,hu,hf⟩ := hc.polled e he
    obtain ⟨j,w,hw,hf'⟩ := Has.put h ht (hkeep e (List.mem_append_left _ he)) ⟨k,u,hu,hf⟩
    exact ⟨j,w,hw,by rwa [hborn k u w e hu hf]⟩
  · have hw' : (g.put v').servers[j]? = some w := hw
    rw [hat] at hw'
    split at hw'
    · rename_i hij
      subst hij
      cases hw'
      rcases he with he | he
      · have hf := hc.pending i v h e (.inl he)
        rw [hborn i v v' e h hf]
        exact hkeep e (List.mem_append_right _ he) hf
      · simp [hbuffer] at he
    · have hf := hc.pending j w hw' e he
      rw [hborn j w w e hw' hf]
      exact hf

end Accept

section Steps

/-- A server accepts while no event on its way is for a context of its own that is
disconnected and let go. -/
def Spares (g : ServerGroup) : Label → Prop
  | .accept token (some _) => ∀ v ∈ g.servers[token]?,
      ∀ e ∈ g.multiplexer.events ++ g.multiplexer.visit token,
        Pool.isReusable v.connections.heap (some e.bundle) = false
  | _ => True

instance (g : ServerGroup) (l : Label) : Decidable (g.Spares l) := by
  unfold Spares
  split <;> infer_instance

def Serves (_ : ServerGroup) : Label → Prop
  | .accept _ (some _) => False
  | _ => True

/-- What a step does. Most are turns of one server, which leave the pairs alone and
take no events. -/
inductive Move (g : ServerGroup) : Label → ServerGroup → Prop where
  | server (handler : Handler) : g.Move (.server handler) { g with
      multiplexer := g.multiplexer.newToken.2
      servers := g.servers ++ [.init handler g.multiplexer.token] }
  | epollWait {ready : List (Bundle × EventBitmap)} (h : g.Reports ready) :
      g.Move (.epollWait ready)
        { g with multiplexer.events := ready.map (fun p => ⟨p.1,p.2,g.born p.1⟩) }
  | dispatch : g.Move .dispatch g.dispatchActiveContext
  | accept {i : Token} {v : Server} {fresh : Bundle} {t : ServerGroup}
      (h : g.servers[i]? = some v) (hphase : v.phase = .accept) (hfree : g.Free fresh)
      (ht : g.emplace v fresh = some t) : g.Move (.accept i (some fresh)) t
  | swap {i : Token} {v : Server} (h : g.servers[i]? = some v) (hphase : v.phase = .swap) :
      g.Move (.swap i) { g.put (v.take (g.multiplexer.visit i)) with
        multiplexer := g.multiplexer.leave i v.eventBuffer }
  | turn {i : Token} {v v' : Server} {l : Label} (hl : g.Serves l)
      (h : g.servers[i]? = some v) (hs : v.Same v')
      (hidle : v'.phase ≠ .handle → v'.eventBuffer = [])
      (hentering : ∀ b, v'.phase = .newContext b → v.phase = .newContext b)
      (hbuffer : ∀ e ∈ v'.eventBuffer, e ∈ v.eventBuffer) : g.Move l (g.put v')
  | miss {i : Token} {v : Server} {e : EpollEvent} {rest : List EpollEvent} (env : EventEnv)
      (h : g.servers[i]? = some v) (hphase : v.phase = .handle) (hbuffer : v.eventBuffer = e :: rest)
      (hmiss : v.find g.born e = none) : g.Move (.handleEvent i env)
        { g.put (v.take rest) with stale := g.stale ++ [e] }

theorem step_move {l : Label} {t : ServerGroup} (hg : g.Wf) (h : g.step l = some t) : g.Move l t := by
  cases l with
  | server handler =>
    cases h
    exact .server handler
  | epollWait ready =>
    simp only [step] at h
    split at h
    · rename_i hr
      cases h
      exact .epollWait hr.2
    · cases h
  | dispatch =>
    cases h
    exact .dispatch
  | accept i fresh =>
    obtain ⟨v,hv,h⟩ := Option.bind_eq_some_iff.mp h
    split at h
    · rename_i hphase
      cases fresh with
      | none =>
        cases h
        exact .turn trivial hv ⟨rfl,rfl,fun _ => rfl⟩ (fun _ => (hg.server i v hv).idle (by simp [hphase]))
          (by simp) (fun _ he => he)
      | some fresh =>
        dsimp only at h
        split at h
        · rename_i hfree
          exact .accept hv hphase hfree h
        · cases h
    · cases h
  | newContext i ctl cb =>
    obtain ⟨v,hv,h⟩ := Option.bind_eq_some_iff.mp h
    split at h
    · rename_i bundle hphase
      obtain ⟨value,hvalue,h⟩ := Option.bind_eq_some_iff.mp h
      cases h
      obtain ⟨h1,h2,h3⟩ := Server.withContext_same hvalue
        (v.handler.handleNewContext ctl cb value.context).2
      exact .turn trivial hv ⟨h1,h2,h3⟩ (fun _ => (hg.server i v hv).idle (by simp [hphase]))
        (by simp) (fun _ he => he)
    · cases h
  | swap i =>
    obtain ⟨v,hv,h⟩ := Option.bind_eq_some_iff.mp h
    split at h
    · rename_i hphase
      cases h
      exact .swap hv hphase
    · cases h
  | handleEvent i env =>
    obtain ⟨v,hv,h⟩ := Option.bind_eq_some_iff.mp h
    split at h
    · rename_i hphase
      simp only [handleEvent] at h
      split at h
      · cases h
      · rename_i e rest hbuffer
        split at h
        · rename_i value hfind
          cases h
          obtain ⟨h1,h2,h3⟩ := Server.withContext_same (Server.find_heap hfind)
            (v.handler.dispatch e.events env value.context).2
          exact .turn trivial hv ⟨h1,h2,h3⟩ (fun hp => absurd rfl hp) (fun _ hb => nomatch hb)
            (fun e' he' => hbuffer ▸ List.mem_cons_of_mem e he')
        · rename_i hmiss
          cases h
          exact .miss env hv hphase hbuffer hmiss
    · cases h
  | loop i =>
    obtain ⟨v,hv,h⟩ := Option.bind_eq_some_iff.mp h
    split at h
    · rename_i hend
      cases h
      exact .turn trivial hv v.loop_same (fun _ => hend.2) (by simp [Server.loop]) (fun _ he => he)
    · cases h
  | user i bundle act =>
    obtain ⟨v,hv,h⟩ := Option.bind_eq_some_iff.mp h
    obtain ⟨value,hvalue,h⟩ := Option.bind_eq_some_iff.mp h
    cases h
    exact .turn trivial hv (Server.withContext_same hvalue _) (hg.server i v hv).idle
      (fun _ hb => hb) (fun _ he => he)

theorem newest_or_old {servers : List Server} {w : Server} {i : Nat}
    (h : (servers ++ [w])[i]? = some v) :
    servers[i]? = some v ∨ (i = servers.length ∧ v = w) := by
  by_cases hi : i < servers.length
  · rw [List.getElem?_append_left hi] at h
    exact .inl h
  · rw [List.getElem?_append_right (by omega)] at h
    obtain ⟨hlt,he⟩ := List.getElem?_eq_some_iff.mp h
    rw [List.length_singleton] at hlt
    simp only [List.getElem_singleton] at he
    exact .inr ⟨by omega,he.symm⟩

theorem Server.init_wf (handler : Handler) (i : Token) : (Server.init handler i).Wf i :=
  ⟨rfl,Store.init_wf,by simp [Server.init,Store.init],fun _ => rfl,by simp [Server.init]⟩

theorem Wf.step {l : Label} {t : ServerGroup} (hg : g.Wf) (h : g.step l = some t) : t.Wf := by
  cases step_move hg h with
  | server handler =>
    refine ⟨fun i v hv => ?_,fun i j v w b hv hw hb hc => ?_,?_,?_⟩
    · rcases newest_or_old hv with hv | ⟨rfl,rfl⟩
      · exact hg.server i v hv
      · exact hg.token ▸ Server.init_wf handler _
    · rcases newest_or_old hv with hv | ⟨rfl,rfl⟩
      · rcases newest_or_old hw with hw | ⟨rfl,rfl⟩
        · exact hg.apart i j v w b hv hw hb hc
        · cases hc
      · cases hb
    · simp [Multiplexer.newToken,hg.token]
    · simp [Multiplexer.newToken,hg.vectors]
  | epollWait => exact hg.of_servers rfl rfl rfl
  | dispatch =>
    have hg' : ServerGroup.Wf { g with multiplexer.events := [] } := hg.of_servers rfl rfl rfl
    exact hg'.dispatch g.multiplexer.events
  | accept hv hphase hfree ht =>
    obtain ⟨v',he,hwf,_,_,hheap⟩ := emplace_cases hg hv hphase hfree
    rw [he] at ht
    cases ht
    refine (hg.put hv hwf (fun b hb => ?_)).of_servers rfl rfl rfl
    rw [hheap] at hb
    split at hb
    · cases hb
    · split at hb
      · rename_i hb'
        exact .inr (hb' ▸ hfree)
      · exact .inl hb
  | swap hv hphase =>
    rename_i i v
    exact (hg.put_take hv (g.multiplexer.visit i)).of_servers rfl rfl
      (by simp [Multiplexer.leave,ServerGroup.put])
  | turn _ hv hs hidle hentering => exact hg.put_same hv hs hidle hentering
  | miss env hv hphase hbuffer hmiss =>
    rename_i i v e rest
    exact (hg.put_take hv rest).of_servers rfl rfl rfl

theorem Current.step {l : Label} {t : ServerGroup} (hc : g.Current) (hg : g.Wf) (hl : g.Spares l)
    (h : g.step l = some t) : t.Current := by
  cases step_move hg h with
  | server handler =>
    refine ⟨fun e he => ?_,fun i v hv e he => ?_,hc.stale⟩
    · obtain ⟨i,v,hv,hf⟩ := hc.polled e he
      exact ⟨i,v,List.getElem?_append_left (List.getElem?_eq_some_iff.mp hv).1 ▸ hv,hf⟩
    · rw [Multiplexer.visit_newToken] at he
      rcases newest_or_old hv with hv | ⟨rfl,rfl⟩
      · exact hc.pending i v hv e he
      · have hend : g.multiplexer.eventVectors[g.servers.length]? = none :=
          List.getElem?_eq_none (Nat.le_of_eq hg.vectors)
        rcases he with he | he
        · simp [Multiplexer.visit,hend] at he
        · cases he
  | epollWait hr =>
    refine ⟨fun e he => ?_,hc.pending,hc.stale⟩
    obtain ⟨p,hp,rfl⟩ := List.mem_map.mp he
    obtain ⟨v,hv,value,hvalue,_⟩ := hr.2.2 p hp
    obtain ⟨i,hi⟩ := List.mem_iff_getElem?.mp hv
    exact ⟨i,v,hi,by simp [Server.find,Option.mem_def.mp hvalue]⟩
  | dispatch =>
    have hg' : ServerGroup.Wf { g with multiplexer.events := [] } := hg.of_servers rfl rfl rfl
    have hc' : ServerGroup.Current { g with multiplexer.events := [] } :=
      ⟨fun _ he => absurd he (List.not_mem_nil),hc.pending,hc.stale⟩
    exact hc'.dispatch hg' g.multiplexer.events hc.polled
  | accept hv hphase hfree ht =>
    obtain ⟨v',he,hwf,hbuffer,_,hheap⟩ := emplace_cases hg hv hphase hfree
    rw [he] at ht
    cases ht
    refine hc.emplace hv hfree hwf.token hbuffer hheap (fun e he hvictim => ?_)
    have hkept := hl _ hv e he
    rw [Store.victim_reusable hvictim] at hkept
    cases hkept
  | swap hv hphase =>
    rename_i i v
    have hsame := v.take_same (g.multiplexer.visit i)
    have ht : (v.take (g.multiplexer.visit i)).token = i := (hg.server i v hv).token
    have hat := put_servers hv ht
    refine ⟨fun e he => Has.put hv ht (fun hf => (hsame.find g.born e).trans hf) (hc.polled e he),
      fun j w hw e he => ?_,hc.stale⟩
    have hw' : (g.put (v.take (g.multiplexer.visit i))).servers[j]? = some w := hw
    rw [hat] at hw'
    split at hw'
    · rename_i hij
      subst hij
      cases hw'
      rcases he with he | he
      · exact hc.pending i v hv e (.inr (Multiplexer.mem_visit_leave he))
      · exact hc.pending i v hv e (.inl he)
    · rename_i hij
      rw [Multiplexer.visit_leave_other _ hij] at he
      exact hc.pending j w hw' e he
  | turn _ hv hs _ _ hbuffer => exact hc.put_same hg hv hs hbuffer
  | miss env hv hphase hbuffer hmiss =>
    rename_i i v e rest
    have hfound := hc.pending i v hv e (.inr (hbuffer ▸ List.mem_cons_self))
    simp [hmiss] at hfound

theorem init_wf : init.Wf :=
  ⟨by simp [init],by simp [init],rfl,rfl⟩

theorem init_current : init.Current :=
  ⟨by simp [init,Multiplexer.init],by simp [init],rfl⟩

theorem path_wf {C : ServerGroup → Label → Prop} (hg : Path step C init g) : g.Wf :=
  hg.keeps (fun _ _ _ _ he hw => hw.step he) init_wf

theorem path_current {g₀ : ServerGroup} (hg₀ : g₀.Wf) (hc : g₀.Current) (hg : Path step Spares g₀ g) :
    g.Current :=
  (hg.keeps (I := fun g => g.Wf ∧ g.Current)
    (fun _ _ _ hl he hi => ⟨hi.1.step he,hi.2.step hi.1 hl he⟩) ⟨hg₀,hc⟩).2

end Steps

section Stale

def quietly : EventEnv := ⟨⟨none,.silent⟩,.data [],.silent,⟨none,.silent⟩,.accepts 0,none⟩

theorem handle_stale {e : EpollEvent} {buffer : List EpollEvent} (hg : g.Wf)
    (h : g.servers[i]? = some v) (hphase : v.phase = .handle) (hbuffer : v.eventBuffer = buffer)
    (he : e ∈ buffer) (hmiss : v.find g.born e = none) :
    ∃ u, Path step Serves g u ∧ u.stale ≠ [] := by
  have hserves : ∀ g : ServerGroup, g.Serves (.handleEvent i quietly) := fun _ => trivial
  induction buffer generalizing g v with
  | nil => cases he
  | cons e' rest ih =>
    cases hfind : v.find g.born e' with
    | none =>
      have hstep : g.step (.handleEvent i quietly) =
          some { g.put (v.take rest) with stale := g.stale ++ [e'] } := by
        simp [step,h,hphase,handleEvent,hbuffer,hfind]
      exact ⟨_,Path.next .refl (hserves g) hstep,by simp⟩
    | some value =>
      have hrest : e ∈ rest := by
        rcases List.mem_cons.mp he with rfl | hrest
        · simp [hmiss] at hfind
        · exact hrest
      let context := (v.handler.dispatch e'.events quietly value.context).2
      let v' := (v.take rest).withContext e'.bundle value context
      have hstep : g.step (.handleEvent i quietly) = some (g.put v') := by
        simp [step,h,hphase,handleEvent,hbuffer,hfind,v',context]
      have hsame : v.Same v' := by
        obtain ⟨h1,h2,h3⟩ := Server.withContext_same (Server.find_heap hfind) context
        exact ⟨h1,h2,h3⟩
      have ht : v'.token = i := (hg.server i v h).token
      obtain ⟨u,hu,hstale⟩ := ih (hg.step hstep) (put_self h ht) rfl rfl hrest (hsame.miss hmiss)
      exact ⟨u,Relation.ReflTransGen.head ⟨_,hserves g,hstep⟩ hu,hstale⟩

theorem dispatch_stale {e : EpollEvent} (he : e ∈ g.multiplexer.events) (hmiss : ¬g.Has e) :
    ∃ u, Path step Serves g u ∧ u.stale ≠ [] := by
  have hserves : g.Serves .dispatch := trivial
  refine ⟨g.dispatchActiveContext,Path.next .refl hserves rfl,?_⟩
  obtain ⟨_,_,_,_,hstale⟩ :=
    dispatch_frame g.multiplexer.events { g with multiplexer.events := [] }
  have hnone : ({ g with multiplexer.events := [] } : ServerGroup).find e = none := by
    rw [← find_has] at hmiss
    simpa [find] using hmiss
  have hmem : e ∈ g.multiplexer.events.filter
      (fun e => (({ g with multiplexer.events := [] } : ServerGroup).find e).isNone) :=
    List.mem_filter.mpr ⟨he,by simp [hnone]⟩
  intro h
  rw [dispatchActiveContext,hstale] at h
  simp [List.append_eq_nil_iff.mp h] at hmem

theorem swap_stale {e : EpollEvent} (hg : g.Wf) (h : g.servers[i]? = some v) {fresh : Bundle}
    (hphase : v.phase = .newContext fresh) (he : e ∈ g.multiplexer.visit i)
    (hmiss : v.find g.born e = none) : ∃ u, Path step Serves g u ∧ u.stale ≠ [] := by
  have hv := hg.server i v h
  obtain ⟨value,hvalue⟩ := Option.isSome_iff_exists.mp (hv.entering fresh hphase)
  let context := (v.handler.handleNewContext none .silent value.context).2
  let v₁ : Server := { v.withContext fresh value context with phase := .swap }
  let v₂ := v₁.take (g.multiplexer.visit i)
  have hnew : g.step (.newContext i none .silent) = some (g.put v₁) := by
    simp [step,h,hphase,hvalue,v₁,context]
  have h₁ : (g.put v₁).servers[i]? = some v₁ := put_self h hv.token
  have hswap : (g.put v₁).step (.swap i) = some { (g.put v₁).put v₂ with
      multiplexer := g.multiplexer.leave i v.eventBuffer } := by
    simp only [step,h₁]
    rfl
  have h₂ : ((g.put v₁).put v₂).servers[i]? = some v₂ := put_self h₁ hv.token
  have hsame : v.Same v₂ := by
    obtain ⟨h1,h2,h3⟩ := Server.withContext_same hvalue context
    exact ⟨h1,h2,h3⟩
  have hnewserves : g.Serves (.newContext i none .silent) := trivial
  have hswapserves : (g.put v₁).Serves (.swap i) := trivial
  obtain ⟨u,hu,hstale⟩ := handle_stale ((hg.step hnew).step hswap) h₂ rfl rfl he (hsame.miss hmiss)
  exact ⟨u,.head ⟨_,hnewserves,hnew⟩ (.head ⟨_,hswapserves,hswap⟩ hu),hstale⟩

/-- What an accept destroys under an event on its way is dereferenced later, with no
further accept. -/
theorem accept_stale {e : EpollEvent} {fresh : Bundle} {t : ServerGroup} (hg : g.Wf)
    (h : g.servers[i]? = some v) (he : e ∈ g.multiplexer.events ++ g.multiplexer.visit i)
    (hvictim : v.connections.victim = some e.bundle)
    (ht : g.step (.accept i (some fresh)) = some t) : ∃ u, Path step Serves t u ∧ u.stale ≠ [] := by
  have hwf := hg.step ht
  cases step_move hg ht with
  | turn hl => exact hl.elim
  | accept hv hphase hfree he' =>
    obtain rfl := Option.some.inj (h.symm.trans hv)
    obtain ⟨v',hput,hv',_,hphase',hheap⟩ := emplace_cases hg h hphase hfree
    rw [hput] at he'
    cases he'
    have hgone : v'.connections.heap e.bundle = none := by
      have halive := hheap e.bundle
      rw [if_pos hvictim] at halive
      simpa using halive
    have hat := put_servers h hv'.token
    have hi := put_self h hv'.token
    rcases List.mem_append.mp he with he | he
    · refine dispatch_stale he ?_
      rintro ⟨j,w,hw,hf⟩
      obtain ⟨value,hvalue⟩ := Option.isSome_iff_exists.mp hf
      have halive := Server.find_heap hvalue
      have hw' : (g.put v').servers[j]? = some w := hw
      rw [hat] at hw'
      split at hw'
      · cases hw'
        simp [hgone] at halive
      · -- the pairs of two servers are apart
        rename_i hij
        exact hij (hg.apart i j v w e.bundle h hw' ((hg.server i v h).store.victim_alive hvictim)
          (by simp [halive]))
    · exact swap_stale hwf hi hphase' he (by simp [Server.find,hgone])

end Stale

def Owns (g : ServerGroup) (v : Server) (e : EpollEvent) : Prop :=
  (v.find g.born e).isSome ∧ v.connections.pool.container.count (some e.bundle) = 1

structure Sound (g : ServerGroup) : Prop where
  stale : g.stale = []
  polled : ∀ e ∈ g.multiplexer.events, ∃ v ∈ g.servers, g.Owns v e
  pending : ∀ i v, g.servers[i]? = some v →
    ∀ e ∈ g.multiplexer.visit i ++ v.eventBuffer, g.Owns v e

theorem Current.sound (hc : g.Current) (hg : g.Wf) : g.Sound := by
  have howns : ∀ (i : Nat) (v : Server) e, g.servers[i]? = some v → (v.find g.born e).isSome →
      g.Owns v e := by
    intro i v e hv hf
    obtain ⟨value,hvalue⟩ := Option.isSome_iff_exists.mp hf
    refine ⟨hf,?_⟩
    rw [(hg.server i v hv).store.owned,Server.find_heap hvalue]
    rfl
  refine ⟨hc.stale,fun e he => ?_,fun i v hv e he => ?_⟩
  · obtain ⟨i,v,hv,hf⟩ := hc.polled e he
    exact ⟨v,List.mem_of_getElem? hv,howns i v e hv hf⟩
  · exact howns i v e hv (hc.pending i v hv e (List.mem_append.mp he))

/-- While no server accepts with an event on its way for a context that could be
recycled, every event has its context. -/
theorem shared_events_owned (g : ServerGroup) (hg : Path step Spares init g) : g.Sound :=
  (path_current init_wf init_current hg).sound (path_wf hg)

def welcome (fresh : Bundle) : List Label :=
  [.accept 0 (some fresh),.newContext 0 none .silent,.swap 0,.loop 0]

def leaving : List (Bundle × EventBitmap) :=
  (16,POLLIN ||| POLLOUT) :: (List.range 15).map (fun bundle => (bundle,POLLOUT))

/-- Seventeen connections of one server; the last one is closed by its peer, and
`meanwhile` is what the poller does before the server handles the event. -/
def farewell (meanwhile : List Label) : List Label :=
  .server .all :: (List.range 17).flatMap welcome ++
    [.epollWait leaving,.dispatch] ++ meanwhile ++ [.accept 0 none,.swap 0] ++
    List.replicate 16 (.handleEvent 0 quietly) ++ [.loop 0]

/-- Its slot goes to the eighteenth connection when nothing more is on its way for it. -/
theorem shared_events_owned_recycled : ∃ g : ServerGroup,
    (g.multiplexer.events ≠ [] ∧ ∃ v ∈ g.servers, v.connections.pool.container[16]? = some (some 17)) ∧
    g.Sound := by
  have hrun : (run step Spares init (farewell [] ++ welcome 17 ++ [.epollWait [(17,POLLOUT)]])).any
      (fun g => g.multiplexer.events ≠ [] ∧
        ∃ v ∈ g.servers, v.connections.pool.container[16]? = some (some 17)) := by decide +kernel
  obtain ⟨g,hg,hcond⟩ := (Option.any_eq_true _ _).mp hrun
  exact ⟨g,of_decide_eq_true hcond,shared_events_owned g (run_path hg)⟩

/-- Reported once more before that, the closed one loses its slot under the event. -/
theorem shared_events_stale : ¬∀ g, Path step Any init g → g.stale = [] := by
  intro hall
  have hrun : (run step Any init (farewell [.epollWait leaving] ++ [.accept 0 (some 17),.dispatch])).any
      (fun g => g.stale ≠ []) := by decide +kernel
  obtain ⟨g,hg,hstale⟩ := (Option.any_eq_true _ _).mp hrun
  exact of_decide_eq_true hstale (hall g (run_path hg))

end ServerGroup

end FluentNet
