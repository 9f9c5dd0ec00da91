import FluentNet.Network.Multiplexer
set_option autoImplicit false

/-!
Handlers that share a multiplexer. The thread that polls appends events to the
vectors of their tokens; a handler swaps its vector for its buffer and goes
through the buffer without the lock.
-/

namespace FluentNet
open Runs

/-- A handler with its token. Outside of `handleEvents` there is no position. -/
structure Receiver where
  token : Token
  eventBuffer : List EpollEvent
  position : Option Nat
  deriving DecidableEq, Repr

namespace Receiver

def pending (v : Receiver) : List EpollEvent :=
  match v.position with
  | none => []
  | some n => v.eventBuffer.drop n

end Receiver

structure Router where
  multiplexer : Multiplexer
  receivers : List Receiver
  /-- `context->exception` of the contexts that an exception was caught for -/
  exception : Bundle → Option Exn
  /-- every event dispatched so far, with the token of its bundle -/
  dispatched : List (Token × EpollEvent)
  /-- every event handled so far, with the token of the handler -/
  handled : List (Token × EpollEvent)

def eventsOf (t : Token) (log : List (Token × EpollEvent)) : List EpollEvent :=
  (log.filter (fun p => p.1 = t)).map Prod.snd

namespace Router

def init : Router := ⟨.init,[],fun _ => none,[],[]⟩

def put (s : Router) (v : Receiver) : Router := { s with receivers := s.receivers.set v.token v }

def handleEvent (s : Router) (v : Receiver) (n : Nat) (e : EpollEvent) (thrown : Option Exn) :
    Router :=
  let s' := { s.put { v with position := some (n+1) } with handled := s.handled ++ [(v.token,e)] }
  match thrown with
  | none => s'
  | some exn => { s' with exception := fun b => if b = e.bundle then some exn else s.exception b }

inductive Label where
  | token
  | dispatch (events : List (Token × EpollEvent))
  /-- the locked swap at the start of `handleEvents` -/
  | swap (token : Token)
  | handleEvent (token : Token) (thrown : Option Exn)
  /-- `_eventBuffer.clear()` at the end of `handleEvents` -/
  | clear (token : Token)

def step (s : Router) : Label → Option Router
  | .token =>
      let (token,multiplexer) := s.multiplexer.newToken
      some { s with multiplexer, receivers := s.receivers ++ [⟨token,[],none⟩] }
  | .dispatch events =>
      if ∀ p ∈ events, p.1 < s.multiplexer.token then
        some { s with
          multiplexer := s.multiplexer.dispatchActiveContext events
          dispatched := s.dispatched ++ events }
      else none
  | .swap token => do
      let v ← s.receivers[token]?
      match v.position with
      | some _ => none
      | none =>
          let v' := { v with eventBuffer := s.multiplexer.visit token, position := some 0 }
          some { s.put v' with multiplexer := s.multiplexer.leave token v.eventBuffer }
  | .handleEvent token thrown => do
      let v ← s.receivers[token]?
      let n ← v.position
      let e ← v.eventBuffer[n]?
      some (s.handleEvent v n e thrown)
  | .clear token => do
      let v ← s.receivers[token]?
      if v.position = some v.eventBuffer.length then
        some (s.put { v with eventBuffer := [], position := none })
      else none

end Router

section Logs
variable (t : Token)

@[simp] theorem eventsOf_append (log log' : List (Token × EpollEvent)) :
    eventsOf t (log ++ log') = eventsOf t log ++ eventsOf t log' := by
  simp [eventsOf]

@[simp] theorem eventsOf_single (t' : Token) (e : EpollEvent) :
    eventsOf t [(t',e)] = if t' = t then [e] else [] := by
  by_cases h : t' = t <;> simp [eventsOf,h]

end Logs

namespace Multiplexer

theorem visit_push (m : Multiplexer) (index t : Token) (event : EpollEvent)
    (h : index < m.eventVectors.length) :
    (m.push index event).visit t = m.visit t ++ if index = t then [event] else [] := by
  simp only [visit,push,List.getD_eq_getElem?_getD,List.getElem?_modify]
  by_cases hi : index = t
  · subst hi
    simp [h]
  · simp [hi]

theorem visit_leave_self (m : Multiplexer) {t : Token} (h : t < m.eventVectors.length)
    (buffer : List EpollEvent) : (m.leave t buffer).visit t = buffer := by
  simp [visit,leave,h]

/-- A dispatch appends to every vector what it has for its token, in order. -/
theorem visit_pushes (m : Multiplexer) (events : List (Token × EpollEvent)) (t : Token)
    (h : ∀ p ∈ events, p.1 < m.eventVectors.length) :
    (m.dispatchActiveContext events).visit t = m.visit t ++ eventsOf t events ∧
      (m.dispatchActiveContext events).token = m.token ∧
      (m.dispatchActiveContext events).eventVectors.length = m.eventVectors.length := by
  induction events generalizing m with
  | nil => simp [dispatchActiveContext,eventsOf]
  | cons p events ih =>
    obtain ⟨hp,hrest⟩ := List.forall_mem_cons.mp h
    obtain ⟨hv,ht,hl⟩ := ih (m.push p.1 p.2) (by simpa using hrest)
    have hfront : m.dispatchActiveContext (p :: events) = (m.push p.1 p.2).dispatchActiveContext events := rfl
    rw [hfront]
    refine ⟨?_,by simpa using ht,by simpa using hl⟩
    rw [hv,visit_push m p.1 t p.2 hp,List.append_assoc]
    change m.visit t ++ ((if p.1 = t then [p.2] else []) ++ eventsOf t events) =
      m.visit t ++ eventsOf t ([p] ++ events)
    rw [eventsOf_append,eventsOf_single]

end Multiplexer

namespace Router

/-- The handler of a token is where it says, every vector has its handler, and a
handler that is not in `handleEvents` has an empty buffer. -/
structure Wf (s : Router) : Prop where
  receivers : s.receivers.length = s.multiplexer.token
  vectors : s.multiplexer.eventVectors.length = s.multiplexer.token
  token : ∀ (i : Token) (v : Receiver), s.receivers[i]? = some v → v.token = i
  idle : ∀ v ∈ s.receivers, v.position = none → v.eventBuffer = []

def pending (s : Router) (t : Token) : List EpollEvent :=
  (s.receivers[t]?.map Receiver.pending).getD []

/-- Every event dispatched for a token was handled by its handler, waits in the
handler's buffer, or waits in the vector, in the order of dispatch. -/
def Accounted (s : Router) : Prop :=
  ∀ t, eventsOf t s.dispatched = eventsOf t s.handled ++ s.pending t ++ s.multiplexer.visit t

theorem init_wf : init.Wf := ⟨rfl,rfl,by simp [init],by simp [init]⟩

theorem init_accounted : init.Accounted := by
  intro t
  simp [init,pending,eventsOf,Multiplexer.init,Multiplexer.visit]

structure Turn (s u : Router) (i : Token) (v v' : Receiver) : Prop where
  found : s.receivers[i]? = some v
  receivers : u.receivers = s.receivers.set i v'
  token : v'.token = i
  idle : v'.position = none → v'.eventBuffer = []
  tokens : u.multiplexer.token = s.multiplexer.token
  vectors : u.multiplexer.eventVectors.length = s.multiplexer.eventVectors.length
  dispatched : u.dispatched = s.dispatched
  others : ∀ t, t ≠ i → eventsOf t u.handled = eventsOf t s.handled ∧
    u.multiplexer.visit t = s.multiplexer.visit t
  accounted : eventsOf i u.handled ++ v'.pending ++ u.multiplexer.visit i =
    eventsOf i s.handled ++ v.pending ++ s.multiplexer.visit i
  taken : eventsOf i s.handled ++ v.pending <+: eventsOf i u.handled ++ v'.pending

section Steps
variable {s u : Router} {i : Token} {v v' : Receiver}

theorem Wf.turn (hs : s.Wf) (h : Turn s u i v v') : u.Wf := by
  constructor
  · rw [h.receivers,List.length_set,hs.receivers,h.tokens]
  · rw [h.vectors,hs.vectors,h.tokens]
  · intro j w hw
    rw [h.receivers,List.getElem?_set] at hw
    split at hw
    · rename_i hij
      split at hw
      · cases hw
        rw [h.token,hij]
      · cases hw
    · exact hs.token j w hw
  · intro w hw hp
    rw [h.receivers] at hw
    rcases List.mem_or_eq_of_mem_set hw with hw | rfl
    · exact hs.idle w hw hp
    · exact h.idle hp

theorem Turn.pending_self (h : Turn s u i v v') : s.pending i = v.pending ∧ u.pending i = v'.pending := by
  have hlt := (List.getElem?_eq_some_iff.mp h.found).1
  constructor
  · simp only [Router.pending,h.found,Option.map_some,Option.getD_some]
  · simp only [Router.pending,h.receivers,List.getElem?_set,if_true,hlt,Option.map_some,Option.getD_some]

theorem Turn.pending_other (h : Turn s u i v v') {t : Token} (ht : t ≠ i) : u.pending t = s.pending t := by
  simp [Router.pending,h.receivers,ht.symm]

theorem Accounted.turn (hs : s.Accounted) (h : Turn s u i v v') : u.Accounted := by
  intro t
  rw [h.dispatched]
  by_cases ht : t = i
  · subst ht
    obtain ⟨hself,hself'⟩ := h.pending_self
    rw [hself',h.accounted,← hself]
    exact hs t
  · obtain ⟨hhandled,hvisit⟩ := h.others t ht
    rw [hhandled,hvisit,h.pending_other ht]
    exact hs t

theorem Wf.lt_vectors (hs : s.Wf) (h : s.receivers[i]? = some v) :
    i < s.multiplexer.eventVectors.length := by
  rw [hs.vectors,← hs.receivers]
  exact (List.getElem?_eq_some_iff.mp h).1

theorem Wf.swap (hs : s.Wf) (h : s.step (.swap i) = some u) : ∃ v v', Turn s u i v v' ∧
    eventsOf i u.handled ++ v'.pending = eventsOf i s.handled ++ v.pending ++ s.multiplexer.visit i := by
  obtain ⟨v,hv,h⟩ := Option.bind_eq_some_iff.mp h
  cases hp : v.position with
  | some n => simp [hp] at h
  | none =>
    have hbuffer := hs.idle v (List.mem_of_getElem? hv) hp
    have ht := hs.token i v hv
    simp only [hp,hbuffer,Option.some.injEq] at h
    subst h
    have hvisit := s.multiplexer.visit_leave_self (hs.lt_vectors hv) []
    let v' : Receiver := { v with eventBuffer := s.multiplexer.visit i, position := some 0 }
    refine ⟨v,v',⟨hv,by simp [put,ht,v'],ht,by simp [v'],rfl,?_,rfl,?_,?_,?_⟩,?_⟩
    · simp [Multiplexer.leave]
    · exact fun t hne => ⟨rfl,s.multiplexer.visit_leave_other (fun hit => hne hit.symm) []⟩
    · simp [Receiver.pending,hp,hvisit,put,v']
    · simp [Receiver.pending,hp,put,v']
    · simp [Receiver.pending,hp,put,v']

theorem Wf.handleEvent (hs : s.Wf) {thrown : Option Exn}
    (h : s.step (.handleEvent i thrown) = some u) : ∃ v v', Turn s u i v v' := by
  obtain ⟨v,hv,h⟩ := Option.bind_eq_some_iff.mp h
  obtain ⟨n,hp,h⟩ := Option.bind_eq_some_iff.mp h
  obtain ⟨e,he,h⟩ := Option.bind_eq_some_iff.mp h
  have ht := hs.token i v hv
  have hfront : v.eventBuffer.drop n = e :: v.eventBuffer.drop (n+1) := by
    obtain ⟨hlt,rfl⟩ := List.getElem?_eq_some_iff.mp he
    exact List.drop_eq_getElem_cons hlt
  let v' : Receiver := { v with position := some (n+1) }
  have hframe : u.receivers = s.receivers.set i v' ∧ u.multiplexer = s.multiplexer ∧
      u.dispatched = s.dispatched ∧ u.handled = s.handled ++ [(i,e)] := by
    cases thrown <;> cases h <;> simp [Router.handleEvent,put,ht,v']
  obtain ⟨hr,hm,hd,hh⟩ := hframe
  have hmoved : eventsOf i u.handled ++ v'.pending = eventsOf i s.handled ++ v.pending := by
    simp [hh,Receiver.pending,hp,hfront,v']
  refine ⟨v,v',hv,hr,ht,by simp [v'],by rw [hm],by rw [hm],hd,?_,by rw [hmoved,hm],?_⟩
  · intro t hne
    simp [hh,hm,hne.symm]
  · exact hmoved ▸ List.prefix_refl _

theorem Wf.clear (hs : s.Wf) (h : s.step (.clear i) = some u) : ∃ v v', Turn s u i v v' := by
  obtain ⟨v,hv,h⟩ := Option.bind_eq_some_iff.mp h
  have ht := hs.token i v hv
  split at h
  · rename_i hp
    cases h
    let v' : Receiver := { v with eventBuffer := [], position := none }
    refine ⟨v,v',hv,by simp [put,ht,v'],ht,fun _ => rfl,rfl,rfl,rfl,fun t _ => ⟨rfl,rfl⟩,?_,?_⟩
    · simp [Receiver.pending,hp,put,v']
    · simp [Receiver.pending,hp,put,v']
  · cases h

theorem Wf.token_turn (hs : s.Wf) (h : s.step .token = some u) : u.Wf := by
  cases h
  constructor
  · simp [hs.receivers]
  · simp [hs.vectors]
  · intro j w hw
    rcases Nat.lt_trichotomy j s.receivers.length with hj | rfl | hj
    · rw [List.getElem?_append_left hj] at hw
      exact hs.token j w hw
    · simp only [List.getElem?_concat_length,Option.some.injEq] at hw
      rw [← hw,hs.receivers]
    · rw [List.getElem?_eq_none (by simp; omega)] at hw
      cases hw
  · intro w hw hp
    rcases List.mem_append.mp hw with hw | hw
    · exact hs.idle w hw hp
    · rw [List.mem_singleton.mp hw]

def taken (s : Router) (t : Token) : List EpollEvent := eventsOf t s.handled ++ s.pending t

theorem Turn.taken_grows (h : Turn s u i v v') (t : Token) : s.taken t <+: u.taken t := by
  by_cases ht : t = i
  · subst ht
    obtain ⟨hself,hself'⟩ := h.pending_self
    rw [Router.taken,Router.taken,hself,hself']
    exact h.taken
  · have hsame : u.taken t = s.taken t := by
      rw [Router.taken,Router.taken,(h.others t ht).1,h.pending_other ht]
    exact hsame ▸ List.prefix_refl _

theorem pending_token (s : Router) (v : Receiver) (hv : v.pending = []) (t : Token) :
    pending { s with
      multiplexer := s.multiplexer.newToken.2, receivers := s.receivers ++ [v] } t = s.pending t := by
  simp only [pending]
  rcases Nat.lt_trichotomy t s.receivers.length with ht | rfl | ht
  · rw [List.getElem?_append_left ht]
  · simp [hv]
  · rw [List.getElem?_eq_none (by simp; omega),List.getElem?_eq_none (Nat.le_of_lt ht)]

/-- What a step does to the handlers and their events. -/
theorem Wf.step_cases (hs : s.Wf) {l : Label} (h : s.step l = some u) :
    (∃ i v v', Turn s u i v v') ∨
    (u.Wf ∧ u.handled = s.handled ∧ u.pending = s.pending ∧ ∃ events,
      u.dispatched = s.dispatched ++ events ∧
      ∀ t, u.multiplexer.visit t = s.multiplexer.visit t ++ eventsOf t events) := by
  cases l with
  | token =>
    have hw := hs.token_turn h
    cases h
    refine .inr ⟨hw,rfl,funext (pending_token s _ rfl),[],by simp,fun t => ?_⟩
    exact (s.multiplexer.visit_newToken t).trans (List.append_nil _).symm
  | dispatch events =>
    simp only [step] at h
    split at h
    · rename_i hguard
      cases h
      have hpushes := fun t => s.multiplexer.visit_pushes events t (by rwa [hs.vectors])
      obtain ⟨_,htoken,hvectors⟩ := hpushes 0
      refine .inr ⟨⟨?_,?_,hs.token,hs.idle⟩,rfl,rfl,events,rfl,fun t => (hpushes t).1⟩
      · exact hs.receivers.trans htoken.symm
      · exact hvectors.trans (hs.vectors.trans htoken.symm)
    · cases h
  | swap i =>
    obtain ⟨v,v',hturn,_⟩ := hs.swap h
    exact .inl ⟨i,v,v',hturn⟩
  | handleEvent i thrown =>
    obtain ⟨v,v',hturn⟩ := hs.handleEvent h
    exact .inl ⟨i,v,v',hturn⟩
  | clear i =>
    obtain ⟨v,v',hturn⟩ := hs.clear h
    exact .inl ⟨i,v,v',hturn⟩

theorem Wf.step (hs : s.Wf) {l : Label} (h : s.step l = some u) : u.Wf := by
  rcases hs.step_cases h with ⟨i,v,v',hturn⟩ | ⟨hw,_⟩
  · exact hs.turn hturn
  · exact hw

theorem Accounted.step (ha : s.Accounted) (hs : s.Wf) {l : Label} (h : s.step l = some u) :
    u.Accounted := by
  rcases hs.step_cases h with ⟨i,v,v',hturn⟩ | ⟨_,hhandled,hpending,events,hd,hvisit⟩
  · exact ha.turn hturn
  · intro t
    rw [hd,hhandled,hpending,hvisit,eventsOf_append,ha t,List.append_assoc _ _ (eventsOf t events)]

theorem Wf.taken_grows (hs : s.Wf) {l : Label} (h : s.step l = some u) (t : Token) :
    s.taken t <+: u.taken t := by
  rcases hs.step_cases h with ⟨i,v,v',hturn⟩ | ⟨_,hhandled,hpending,_⟩
  · exact hturn.taken_grows t
  · have hsame : u.taken t = s.taken t := by rw [taken,taken,hhandled,hpending]
    exact hsame ▸ List.prefix_refl _

theorem path_accounted (h : Path step Any s u) (hs : s.Wf) (ha : s.Accounted) :
    u.Wf ∧ u.Accounted :=
  h.keeps (I := fun s => s.Wf ∧ s.Accounted) (fun _ _ _ _ he hi => ⟨hi.1.step he,hi.2.step hi.1 he⟩)
    ⟨hs,ha⟩

theorem path_taken (h : Path step Any s u) (hs : s.Wf) (t : Token) : s.taken t <+: u.taken t := by
  have hkeeps := h.keeps (I := fun w => w.Wf ∧ s.taken t <+: w.taken t)
    (fun _ _ _ _ he hi => ⟨hi.1.step he,hi.2.trans (hi.1.taken_grows he t)⟩)
  exact (hkeeps ⟨hs,List.prefix_refl _⟩).2

theorem Accounted.swap (ha : s.Accounted) (hs : s.Wf) (h : s.step (.swap i) = some u) :
    u.taken i = eventsOf i s.dispatched := by
  obtain ⟨v,v',hturn,htaken⟩ := hs.swap h
  obtain ⟨hself,hself'⟩ := hturn.pending_self
  rw [taken,hself',htaken,← hself]
  exact (ha i).symm

end Steps

def Idle (s : Router) (t : Token) : Prop := ∃ v, s.receivers[t]? = some v ∧ v.position = none

theorem Idle.taken {s : Router} {t : Token} (h : s.Idle t) : s.taken t = eventsOf t s.handled := by
  obtain ⟨v,hv,hp⟩ := h
  simp [Router.taken,pending,hv,Receiver.pending,hp]

section Calls
variable {s : Router} {i : Token}

def rest (i : Token) (thrown : List (Option Exn)) : List Label :=
  thrown.map (Label.handleEvent i) ++ [.clear i]

/-- The loop of `handleEvents` ends, whatever is thrown in it. -/
theorem loop_finishes (hs : s.Wf) {v : Receiver} {n : Nat} (h : s.receivers[i]? = some v)
    (hp : v.position = some n) {thrown : List (Option Exn)}
    (hlen : n+thrown.length = v.eventBuffer.length) :
    ∃ u, run step Any s (rest i thrown) = some u ∧ u.Idle i ∧ u.dispatched = s.dispatched := by
  have hti := hs.token i v h
  have hlt := (List.getElem?_eq_some_iff.mp h).1
  induction thrown generalizing s v n with
  | nil =>
    let v' : Receiver := { v with eventBuffer := [], position := none }
    have hclear : s.step (.clear i) = some (s.put v') := by
      have hend : v.position = some v.eventBuffer.length := by rw [hp,← hlen]; rfl
      simp [step,h,hend,v']
    refine ⟨s.put v',by simp [rest,run,Any,hclear],⟨v',?_,rfl⟩,rfl⟩
    simp [put,hti,v',hlt]
  | cons exn thrown ih =>
    have hn : n < v.eventBuffer.length := by
      rw [← hlen,List.length_cons]
      omega
    have hturn : s.step (.handleEvent i exn) = some (s.handleEvent v n v.eventBuffer[n] exn) := by
      simp [step,h,hp,hn]
    let v' : Receiver := { v with position := some (n+1) }
    have hr : (s.handleEvent v n v.eventBuffer[n] exn).receivers = s.receivers.set i v' := by
      cases exn <;> simp [handleEvent,put,hti,v']
    have hv' : (s.handleEvent v n v.eventBuffer[n] exn).receivers[i]? = some v' := by
      simp [hr,hlt]
    have hd : (s.handleEvent v n v.eventBuffer[n] exn).dispatched = s.dispatched := by
      cases exn <;> rfl
    obtain ⟨u,hu,hidle,hdu⟩ := ih (hs.step hturn) hv' rfl (by simp [v',← hlen]; omega) hti
      (by rw [hr,List.length_set]; exact hlt)
    refine ⟨u,?_,hidle,hdu.trans hd⟩
    simpa [rest,run,Any,hturn] using hu

theorem Idle.handleEvents (h : s.Idle i) (hs : s.Wf) {thrown : List (Option Exn)}
    (hlen : thrown.length = (s.multiplexer.visit i).length) :
    ∃ t u, s.step (.swap i) = some t ∧ run step Any t (rest i thrown) = some u ∧ u.Idle i ∧
      u.dispatched = s.dispatched := by
  obtain ⟨v,hv,hp⟩ := h
  let v' : Receiver := { v with eventBuffer := s.multiplexer.visit i, position := some 0 }
  let t : Router := { s.put v' with multiplexer := s.multiplexer.leave i v.eventBuffer }
  have hswap : s.step (.swap i) = some t := by simp [step,hv,hp,t,v']
  have hlt := (List.getElem?_eq_some_iff.mp hv).1
  have hv' : t.receivers[i]? = some v' := by simp [t,put,v',hs.token i v hv,hlt]
  have hlen' : 0+thrown.length = v'.eventBuffer.length := by simp [v',hlen]
  obtain ⟨u,hu,hidle,hd⟩ := loop_finishes (hs.step hswap) hv' rfl hlen'
  exact ⟨t,u,hswap,hu,hidle,hd⟩

end Calls

/-- Between two steps every event dispatched for a token is handled, once and in
order, by the handler of that token, or is on its way to it. -/
structure Routed (s : Router) : Prop where
  accounted : s.Accounted
  in_order : ∀ t, eventsOf t s.handled <+: eventsOf t s.dispatched
  token : ∀ (i : Token) (v : Receiver), s.receivers[i]? = some v → v.token = i

/-- Events reach the handlers of their tokens, and no others, once and in the order
of dispatch. What was dispatched before a call of `handleEvents` is handled when the
call is over, whoever runs meanwhile and whatever the handlers throw. -/
theorem events_routed (s : Router) (hs : Path step Any init s) :
    s.Routed ∧
    (∀ i u t, s.step (.swap i) = some u → Path step Any u t → t.Idle i →
      eventsOf i s.dispatched <+: eventsOf i t.handled) ∧
    ∀ i, s.Idle i → ∀ thrown : List (Option Exn), thrown.length = (s.multiplexer.visit i).length →
      ∃ u, run step Any s (.swap i :: rest i thrown) = some u ∧
        eventsOf i u.handled = eventsOf i s.dispatched := by
  obtain ⟨hw,ha⟩ := path_accounted hs init_wf init_accounted
  have hcall : ∀ i u t, s.step (.swap i) = some u → Path step Any u t → t.Idle i →
      eventsOf i s.dispatched <+: eventsOf i t.handled := by
    intro i u t hswap hpath hidle
    have htaken := path_taken hpath (hw.step hswap) i
    rwa [ha.swap hw hswap,hidle.taken] at htaken
  have horder : ∀ u : Router, u.Accounted → ∀ t, eventsOf t u.handled <+: eventsOf t u.dispatched := by
    intro u hu t
    rw [hu t,List.append_assoc]
    exact List.prefix_append _ _
  refine ⟨⟨ha,horder s ha,hw.token⟩,hcall,fun i hidle thrown hlen => ?_⟩
  obtain ⟨t,u,hswap,hrun,hdone,hd⟩ := hidle.handleEvents hw hlen
  have hpath := run_path hrun
  have hau := path_accounted hpath (hw.step hswap) (ha.step hw hswap)
  have hback := horder u hau.2 i
  rw [hd] at hback
  refine ⟨u,?_,hback.eq_of_length_le (hcall i t u hswap hpath hdone).length_le⟩
  simpa [run,Any,hswap] using hrun

def interleaved : List Label :=
  let event := fun bundle => (⟨bundle,1,1⟩ : EpollEvent)
  [.token,.token,.dispatch [(1,event 7),(0,event 5),(1,event 8)],.swap 1,
    .handleEvent 1 (some .callbackException),.dispatch [(1,event 9)],.handleEvent 1 none,.clear 1]

theorem events_routed_interleaved : ∃ s : Router,
    (eventsOf 1 s.handled).map EpollEvent.bundle = [7,8] ∧ s.multiplexer.visit 0 ≠ [] ∧ s.Routed ∧
    (∀ i u t, s.step (.swap i) = some u → Path step Any u t → t.Idle i →
      eventsOf i s.dispatched <+: eventsOf i t.handled) ∧
    ∀ i, s.Idle i → ∀ thrown : List (Option Exn), thrown.length = (s.multiplexer.visit i).length →
      ∃ u, run step Any s (.swap i :: rest i thrown) = some u ∧
        eventsOf i u.handled = eventsOf i s.dispatched := by
  have hrun : (run step Any init interleaved).any (fun s =>
      (eventsOf 1 s.handled).map EpollEvent.bundle = [7,8] ∧ s.multiplexer.visit 0 ≠ []) := by
    decide +kernel
  obtain ⟨s,hs,hcond⟩ := (Option.any_eq_true _ _).mp hrun
  obtain ⟨hhandled,hwaits⟩ := of_decide_eq_true hcond
  exact ⟨s,hhandled,hwaits,events_routed s (run_path hs)⟩

end Router

end FluentNet
