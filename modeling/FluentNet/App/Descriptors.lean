import FluentNet.App.SharedMultiplexer
import FluentNet.Network.Descriptor
set_option autoImplicit false

/-!
The descriptors of a process whose servers share a multiplexer. Servers come and go,
connections come and are recycled, and the application opens and closes descriptors of
its own, which it may also take from a connection.
-/

namespace FluentNet
open Throwing Runs Handles

inductive Place where
  | epoll
  | listenDescriptor (token : Token)
  | lastBufferedSocket (token : Token)
  | context (bundle : Bundle)
  | application (fd : Int)
  deriving DecidableEq, Repr

structure Process where
  group : ServerGroup
  /-- the multiplexer's, until it is destroyed -/
  epollFd : Option Int
  /-- by token; none where a server's constructor has thrown or the server is destroyed -/
  acceptors : List (Option Acceptor)
  /-- `socket` of the contexts, invalid where there is no pair -/
  sockets : Bundle → Socket
  application : List Int
  fds : Fds

/-- `~pair` at an address: what becomes of its socket and of the descriptors. -/
def destroyPair (s : (Bundle → Socket) × Fds) (bundle : Bundle) : (Bundle → Socket) × Fds :=
  (Function.update s.1 bundle .invalid,(s.1 bundle).destroy s.2)

def ServerGroup.Label.token? : ServerGroup.Label → Option Token
  | .newContext token _ _ => some token
  | .swap token => some token
  | .handleEvent token _ => some token
  | .loop token => some token
  | .user token _ _ => some token
  | _ => none

namespace Process

def init (epollFd : Int) : Process where
  group := .init
  epollFd := some epollFd
  acceptors := []
  sockets := fun _ => .invalid
  application := []
  fds := ⟨[epollFd],[]⟩

def acceptor (s : Process) (token : Token) : Option Acceptor := (s.acceptors[token]?).join

/-- `BaseServer::accept` up to `handleNewContext`, with the result of `::accept4` and
the address of the pair -/
def accept (s : Process) (v : Server) (a : Acceptor) (maybeFd : Int) (fresh : Bundle) :
    Option Process :=
  match a.accept maybeFd s.fds with
  | (false,a,fds) => do
      let group ← s.group.step (.accept v.token none)
      some { s with group, acceptors := s.acceptors.set v.token (some a), fds }
  | (true,a,fds) => do
      let (arguments,a) := a.aceeptResult
      let group ← s.group.step (.accept v.token (some fresh))
      -- the context is made of the arguments and moved into the pair
      let (temp,arguments) := arguments.move
      let (socket,temp) := temp.move
      let fds := temp.destroy fds
      let sockets := Function.update s.sockets fresh socket
      let (sockets,fds) := v.connections.victim.toList.foldl destroyPair (sockets,fds)
      let acceptors := s.acceptors.set v.token (some a)
      some { s with group, acceptors, sockets, fds := arguments.destroy fds }

/-- `~BaseServer`: the connections first, the acceptor then -/
def destroy (s : Process) (v : Server) (a : Acceptor) : Process :=
  let (sockets,fds) := (v.connections.pool.container.filterMap id).foldl destroyPair (s.sockets,s.fds)
  let group := s.group.put { v with connections := .init, eventBuffer := [] }
  { s with group, acceptors := s.acceptors.set v.token none, sockets, fds := a.destroy fds }

inductive Label where
  /-- `BaseServer::BaseServer` -/
  | server (handler : Handler) (ans : ListenAnswers)
  | accept (token : Token) (maybeFd : Int) (fresh : Bundle)
  | group (l : ServerGroup.Label)
  | destroy (token : Token)
  | destroyMultiplexer
  /-- the application calls `int fd = std::move(context->socket)` -/
  | take (bundle : Bundle)
  /-- the application opens a descriptor, or closes one of its own -/
  | opens (fd : Int)
  | closes (fd : Int)

def step (s : Process) : Label → Option Process
  | .server handler ans =>
      if s.epollFd.isSome ∧ s.fds.Offers ans.socket then do
        let group ← s.group.step (.server handler)
        match Acceptor.make ans s.fds with
        | (.ok a,fds) => some { s with group, acceptors := s.acceptors ++ [some a], fds }
        | (.error _,fds) => some { s with group, acceptors := s.acceptors ++ [none], fds }
      else none
  | .accept token maybeFd fresh => do
      let v ← s.group.servers[token]?
      let a ← s.acceptor token
      if s.fds.Offers maybeFd then s.accept v a maybeFd fresh else none
  | .group l =>
      match l with
      | .server _ => none
      | .accept _ _ => none
      | l =>
          if s.epollFd.isSome ∧ ∀ i ∈ l.token?, (s.acceptor i).isSome then do
            let group ← s.group.step l
            some { s with group }
          else none
  | .destroy token => do
      let v ← s.group.servers[token]?
      let a ← s.acceptor token
      if v.phase = .accept then some (s.destroy v a) else none
  | .destroyMultiplexer =>
      match s.epollFd with
      | some epollFd =>
          if s.acceptors.all Option.isNone then
            some { s with epollFd := none, fds := s.fds.close epollFd }
          else none
      | none => none
  | .take bundle =>
      let (fd,socket) := (s.sockets bundle).release
      if fd ≠ Socket.INVALID_FD then
        some { s with
          sockets := Function.update s.sockets bundle socket
          application := fd :: s.application }
      else none
  | .opens fd =>
      if fd ∉ s.fds.opened then
        some { s with application := fd :: s.application, fds := s.fds.enter fd }
      else none
  | .closes fd =>
      if fd ∈ s.application then
        some { s with application := s.application.filter (· ≠ fd), fds := s.fds.close fd }
      else none

def holds (s : Process) : Place → Option Int
  | .epoll => s.epollFd
  | .listenDescriptor i => (s.acceptor i).bind (fun a => a.listenDescriptor.held)
  | .lastBufferedSocket i => (s.acceptor i).bind (fun a => a.lastBufferedSocket.held)
  | .context b => (s.sockets b).held
  | .application fd => if fd ∈ s.application then some fd else none

def custody (s : Process) : Custody Place Int := ⟨s.holds,s.fds.opened,s.fds.stray⟩

section Custody
variable (s : Process)

theorem custody_ext {s t : Custody Place Int} (hholds : ∀ p, s.holds p = t.holds p)
    (hopened : s.opened = t.opened) (hstray : s.stray = t.stray) : s = t := by
  obtain ⟨_,_,_⟩ := s
  obtain ⟨_,_,_⟩ := t
  cases hopened
  cases hstray
  exact congrArg (Custody.mk · _ _) (funext hholds)

theorem custody_close {s t : Process} {p : Place} {fd : Int} (hp : s.holds p = some fd)
    (hholds : ∀ q, t.holds q = Function.update s.holds p none q) (hfds : t.fds = s.fds.close fd) :
    t.custody = s.custody.drop p := by
  have hholds' : t.holds = Function.update s.holds p none := funext hholds
  by_cases hfd : fd ∈ s.fds.opened <;> simp [custody,Custody.drop,hp,hholds',hfds,Fds.close,hfd]

theorem custody_set_socket (b : Bundle) (socket : Socket) (fds : Fds) :
    { s with sockets := Function.update s.sockets b socket, fds }.custody =
      ⟨Function.update s.holds (.context b) socket.held,fds.opened,fds.stray⟩ := by
  refine custody_ext (fun p => ?_) rfl rfl
  cases p with
  | context a =>
    by_cases ha : a = b
    · subst ha
      simp [custody,holds]
    · have hne : Place.context a ≠ .context b := fun h => ha (Place.context.inj h)
      simp [custody,holds,Function.update_of_ne ha,Function.update_of_ne hne]
  | epoll => rfl
  | listenDescriptor i => rfl
  | lastBufferedSocket i => rfl
  | application fd => rfl

theorem custody_enter_context (b : Bundle) {fd : Int} (h : 0 ≤ fd) :
    { s with sockets := Function.update s.sockets b ⟨fd⟩, fds := s.fds.enter fd }.custody =
      s.custody.acquire (.context b) fd := by
  rw [custody_set_socket,Socket.held_of_nonneg h]
  rfl

theorem custody_destroyPair (b : Bundle) :
    { s with sockets := (destroyPair (s.sockets,s.fds) b).1, fds := (destroyPair (s.sockets,s.fds) b).2 }.custody =
      s.custody.drop (.context b) := by
  have hat : s.holds (.context b) = (s.sockets b).held := rfl
  have hset := custody_set_socket s b .invalid ((s.sockets b).destroy s.fds)
  cases hheld : (s.sockets b).held with
  | none =>
    have hfds : (s.sockets b).destroy s.fds = s.fds := by rw [Socket.destroy_held,hheld]
    have hsame : Function.update s.holds (.context b) none = s.holds := by
      rw [← hheld,← hat,Function.update_eq_self]
    rw [hfds,Socket.held_invalid,hsame] at hset
    rw [drop_of_none _ (hat.trans hheld),destroyPair,hfds]
    exact hset
  | some fd =>
    have hfds : (s.sockets b).destroy s.fds = s.fds.close fd := by rw [Socket.destroy_held,hheld]
    exact custody_close (hat.trans hheld) (fun q => congrFun (congrArg Custody.holds hset) q) hfds

theorem custody_destroyPairs (bs : List Bundle) :
    { s with
      sockets := (bs.foldl destroyPair (s.sockets,s.fds)).1
      fds := (bs.foldl destroyPair (s.sockets,s.fds)).2 }.custody =
      s.custody.dropAll (bs.map .context) := by
  induction bs generalizing s with
  | nil => rfl
  | cons b bs ih =>
    have hstep := ih { s with
      sockets := (destroyPair (s.sockets,s.fds) b).1
      fds := (destroyPair (s.sockets,s.fds) b).2 }
    rw [custody_destroyPair] at hstep
    exact hstep

end Custody

section Acceptors
variable {s : Process} {i : Token} {a : Acceptor} (group : ServerGroup)

theorem acceptor_append (acceptors : List (Option Acceptor)) (x : Option Acceptor) (j : Nat) :
    ((acceptors ++ [x])[j]?).join = if j = acceptors.length then x else (acceptors[j]?).join := by
  rcases Nat.lt_trichotomy j acceptors.length with hlt | rfl | hgt
  · rw [List.getElem?_append_left hlt,if_neg (Nat.ne_of_lt hlt)]
  · simp
  · have hend : (acceptors ++ [x]).length ≤ j := by
      rw [List.length_append,List.length_singleton]
      exact hgt
    rw [List.getElem?_eq_none hend,List.getElem?_eq_none (Nat.le_of_lt hgt),
      if_neg (Nat.ne_of_gt hgt)]

theorem acceptor_new (s : Process) : s.acceptor s.acceptors.length = none := by
  simp [acceptor]

theorem acceptor_lt (h : s.acceptor i = some a) : i < s.acceptors.length := by
  obtain ⟨hlt,_⟩ := List.getElem?_eq_some_iff.mp (Option.join_eq_some_iff.mp h)
  exact hlt

theorem acceptor_set (h : s.acceptor i = some a) (x : Option Acceptor) (j : Token) :
    ((s.acceptors.set i x)[j]?).join = if j = i then x else s.acceptor j := by
  have hlt := acceptor_lt h
  by_cases hj : j = i
  · simp [hj,hlt]
  · rw [List.getElem?_set_ne (Ne.symm hj),if_neg hj]
    rfl

theorem acceptor_set_self (h : s.acceptor i = some a) : s.acceptors.set i (some a) = s.acceptors := by
  obtain ⟨hlt,he⟩ := List.getElem?_eq_some_iff.mp (Option.join_eq_some_iff.mp h)
  rw [← he,List.set_getElem_self]

theorem custody_server {fd : Int} (h : 0 ≤ fd) :
    { s with group, acceptors := s.acceptors ++ [some (Acceptor.mk ⟨fd⟩ .invalid)], fds := s.fds.enter fd }.custody =
      s.custody.acquire (.listenDescriptor s.acceptors.length) fd := by
  refine custody_ext (fun p => ?_) rfl rfl
  cases p with
  | listenDescriptor j =>
    by_cases hj : j = s.acceptors.length
    · simp [custody,holds,Custody.acquire,acceptor,hj,Socket.held_of_nonneg h]
    · simp [custody,holds,Custody.acquire,acceptor,acceptor_append,hj]
  | lastBufferedSocket j =>
    by_cases hj : j = s.acceptors.length
    · simp [custody,holds,Custody.acquire,acceptor,hj,Socket.held_invalid]
    · simp [custody,holds,Custody.acquire,acceptor,acceptor_append,hj]
  | epoll => rfl
  | context b => rfl
  | application fd => rfl

theorem custody_failed : { s with group, acceptors := s.acceptors ++ [none] }.custody = s.custody := by
  have hat : ∀ j, ((s.acceptors ++ [none])[j]?).join = s.acceptor j := by
    intro j
    rw [acceptor_append]
    split
    · rename_i hj
      rw [hj,acceptor_new]
    · rfl
  refine custody_ext (fun p => ?_) rfl rfl
  cases p <;> simp only [custody,holds,acceptor,hat]

theorem custody_destroy (h : s.acceptor i = some a) (hempty : a.lastBufferedSocket = .invalid) :
    { s with group, acceptors := s.acceptors.set i none, fds := a.destroy s.fds }.custody =
      s.custody.drop (.listenDescriptor i) := by
  have hat : s.holds (.listenDescriptor i) = a.listenDescriptor.held := by simp [holds,h]
  have hfds : a.destroy s.fds = a.listenDescriptor.destroy s.fds := by
    rw [Acceptor.destroy,hempty]
    rfl
  have hholds : ∀ fds q, Process.holds { s with group, acceptors := s.acceptors.set i none, fds } q =
      Function.update s.holds (.listenDescriptor i) none q := by
    intro fds q
    cases q with
    | listenDescriptor j =>
      by_cases hj : j = i
      · simp [holds,acceptor,hj,acceptor_lt h]
      · simp [holds,acceptor,acceptor_set h,hj]
    | lastBufferedSocket j =>
      by_cases hj : j = i
      · simp [holds,acceptor,acceptor_set h,hj,Option.join_eq_some_iff.mp h,hempty,Socket.held_invalid]
      · simp [holds,acceptor,acceptor_set h,hj]
    | epoll => rfl
    | context b => rfl
    | application fd => rfl
  rw [hfds]
  cases hheld : a.listenDescriptor.held with
  | none =>
    have hsame : a.listenDescriptor.destroy s.fds = s.fds := by rw [Socket.destroy_held,hheld]
    rw [drop_of_none _ (hat.trans hheld),hsame]
    refine custody_ext (fun p => (hholds s.fds p).trans ?_) rfl rfl
    rw [← hheld,← hat,Function.update_eq_self]
    rfl
  | some fd =>
    refine custody_close (hat.trans hheld) (hholds _) ?_
    exact (Socket.destroy_held s.fds).trans (by rw [hheld])

end Acceptors

section Application
variable {s : Process} {fd : Int}

theorem custody_take {b : Bundle} (hb : s.holds (.context b) = some fd) (hfd : fd ∉ s.application) :
    { s with
      sockets := Function.update s.sockets b .invalid
      application := fd :: s.application }.custody = s.custody.swap (.context b) (.application fd) := by
  refine custody_ext (fun p => ?_) rfl rfl
  have hempty : s.holds (.application fd) = none := by simp [holds,hfd]
  simp only [Custody.swap,custody,Function.comp_apply]
  cases p with
  | context a =>
    by_cases ha : a = b
    · subst ha
      rw [Equiv.swap_apply_left,hempty]
      simp [holds,Socket.held_invalid]
    · rw [Equiv.swap_apply_of_ne_of_ne (fun h => ha (Place.context.inj h)) (by simp)]
      simp [holds,ha]
  | application k =>
    by_cases hk : k = fd
    · subst hk
      rw [Equiv.swap_apply_right,hb]
      simp [holds]
    · rw [Equiv.swap_apply_of_ne_of_ne (by simp) (fun h => hk (Place.application.inj h))]
      simp [holds,hk]
  | epoll => rw [Equiv.swap_apply_of_ne_of_ne (by simp) (by simp)]; rfl
  | listenDescriptor i => rw [Equiv.swap_apply_of_ne_of_ne (by simp) (by simp)]; rfl
  | lastBufferedSocket i => rw [Equiv.swap_apply_of_ne_of_ne (by simp) (by simp)]; rfl

theorem custody_opens (s : Process) (fd : Int) :
    { s with application := fd :: s.application, fds := s.fds.enter fd }.custody =
      s.custody.acquire (.application fd) fd := by
  refine custody_ext (fun p => ?_) rfl rfl
  cases p with
  | application k => by_cases hk : k = fd <;> simp [custody,holds,Custody.acquire,hk]
  | epoll => rfl
  | listenDescriptor i => rfl
  | lastBufferedSocket i => rfl
  | context b => rfl

theorem custody_closes (h : fd ∈ s.application) :
    { s with application := s.application.filter (· ≠ fd), fds := s.fds.close fd }.custody =
      s.custody.drop (.application fd) := by
  refine custody_close (by simp [holds,h]) (fun p => ?_) rfl
  cases p with
  | application k => by_cases hk : k = fd <;> simp [holds,hk]
  | epoll => rfl
  | listenDescriptor i => rfl
  | lastBufferedSocket i => rfl
  | context b => rfl

theorem custody_destroyMultiplexer (h : s.epollFd = some fd) :
    { s with epollFd := none, fds := s.fds.close fd }.custody = s.custody.drop .epoll := by
  refine custody_close h (fun p => ?_) rfl
  cases p <;> rfl

end Application

end Process

namespace ServerGroup
variable {g t : ServerGroup}

structure Keeps (g t : ServerGroup) : Prop where
  servers : t.servers.length = g.servers.length
  alive : ∀ (i : Token) (v : Server), g.servers[i]? = some v → ∃ v', t.servers[i]? = some v' ∧
    ∀ b, (v'.connections.heap b).isSome = (v.connections.heap b).isSome

theorem keeps_of_servers (h : t.servers = g.servers) : g.Keeps t :=
  ⟨congrArg List.length h,fun _ v hv => ⟨v,h ▸ hv,fun _ => rfl⟩⟩

theorem put_length (g : ServerGroup) (v : Server) : (g.put v).servers.length = g.servers.length :=
  List.length_set ..

theorem keeps_put {i : Token} {v v' : Server} (h : g.servers[i]? = some v) (hi : v'.token = i)
    (halive : ∀ b, (v'.connections.heap b).isSome = (v.connections.heap b).isSome) :
    g.Keeps (g.put v') := by
  refine ⟨g.put_length v',fun j w hw => ?_⟩
  rw [put_servers h hi]
  split
  · rename_i hij
    subst hij
    obtain rfl := Option.some.inj (h.symm.trans hw)
    exact ⟨v',rfl,halive⟩
  · exact ⟨w,hw,fun _ => rfl⟩

theorem step_keeps {l : Label} (hg : g.Wf) (hserver : ∀ handler, l ≠ .server handler)
    (haccept : g.Serves l) (h : g.step l = some t) : g.Keeps t := by
  cases step_move hg h with
  | server handler => exact absurd rfl (hserver handler)
  | epollWait => exact keeps_of_servers rfl
  | dispatch =>
    exact keeps_of_servers (dispatch_frame g.multiplexer.events { g with multiplexer.events := [] }).1
  | accept => exact haccept.elim
  | swap hv hphase =>
    rename_i i v
    have hk : g.Keeps (g.put (v.take (g.multiplexer.visit i))) :=
      keeps_put hv (hg.server i v hv).token (v.take_same (g.multiplexer.visit i)).alive
    exact ⟨hk.servers,hk.alive⟩
  | turn _ hv hs => exact keeps_put hv (hs.token.trans (hg.server _ _ hv).token) hs.alive
  | miss env hv hphase hbuffer hmiss =>
    rename_i i v e rest
    have hk : g.Keeps (g.put (v.take rest)) :=
      keeps_put hv (hg.server i v hv).token (v.take_same rest).alive
    exact ⟨hk.servers,hk.alive⟩

theorem accept_alive {i : Token} {v : Server} {fresh : Bundle} (hg : g.Wf)
    (hv : g.servers[i]? = some v) (h : g.step (.accept i (some fresh)) = some t) :
    g.Free fresh ∧ t.servers.length = g.servers.length ∧
    (∃ w, t.servers[i]? = some w ∧ (w.connections.heap fresh).isSome) ∧
    ∀ (j : Token) (w : Server) b, g.servers[j]? = some w → (w.connections.heap b).isSome →
      v.connections.victim ≠ some b → ∃ w', t.servers[j]? = some w' ∧ (w'.connections.heap b).isSome := by
  cases step_move hg h with
  | turn haccept => exact haccept.elim
  | accept hv' hphase hfree ht =>
    obtain rfl := Option.some.inj (hv.symm.trans hv')
    obtain ⟨v',he,hwf,_,_,hheap⟩ := emplace_cases hg hv hphase hfree
    rw [he] at ht
    cases ht
    have hspared := (hg.server i v hv).store.victim_ne (hfree v (List.mem_of_getElem? hv))
    refine ⟨hfree,g.put_length v',⟨v',put_self hv hwf.token,?_⟩,fun j w b hw hb hne => ?_⟩
    · rw [hheap,if_neg hspared,if_pos rfl]
    · have hat := put_servers hv hwf.token j
      by_cases hij : i = j
      · subst hij
        obtain rfl := Option.some.inj (hv.symm.trans hw)
        refine ⟨v',hat.trans (if_pos rfl),?_⟩
        rw [hheap,if_neg hne]
        split
        · rfl
        · exact hb
      · exact ⟨w,(hat.trans (if_neg hij)).trans hw,hb⟩

end ServerGroup

namespace Process

/-- The custody is tight, nothing is buffered between two accepts, and a socket is with
a pair of a server that is there. -/
structure Wf (s : Process) : Prop where
  group : s.group.Wf
  tight : Tight s.custody
  servers : s.acceptors.length = s.group.servers.length
  buffered : ∀ i a, s.acceptor i = some a → a.lastBufferedSocket = .invalid
  alive : ∀ b, s.holds (.context b) ≠ none → ∃ (i : Token) (v : Server),
    s.group.servers[i]? = some v ∧ (s.acceptor i).isSome ∧ (v.connections.heap b).isSome

def enters (s : Process) (group : ServerGroup) (fd : Int) (fresh : Bundle) (victims : List Bundle) :
    Process :=
  let entered := (Function.update s.sockets fresh ⟨fd⟩,s.fds.enter fd)
  { s with
    group
    sockets := (victims.foldl destroyPair entered).1
    fds := (victims.foldl destroyPair entered).2 }

inductive Move (s : Process) : Label → Process → Prop where
  | server {handler : Handler} {ans : ListenAnswers} {group : ServerGroup}
      (hg : s.group.step (.server handler) = some group) (h0 : 0 ≤ ans.socket)
      (hfd : ans.socket ∉ s.fds.opened) : s.Move (.server handler ans) { s with
        group
        acceptors := s.acceptors ++ [some ⟨⟨ans.socket⟩,.invalid⟩]
        fds := s.fds.enter ans.socket }
  | failed {handler : Handler} {ans : ListenAnswers} {group : ServerGroup}
      (hg : s.group.step (.server handler) = some group) :
      s.Move (.server handler ans) { s with group, acceptors := s.acceptors ++ [none] }
  | accept {i : Token} {v : Server} {maybeFd : Int} {fresh : Bundle} {group : ServerGroup}
      (hv : s.group.servers[i]? = some v) (ha : (s.acceptor i).isSome)
      (hg : s.group.step (.accept i (some fresh)) = some group) (h0 : 0 ≤ maybeFd)
      (hfd : maybeFd ∉ s.fds.opened) : s.Move (.accept i maybeFd fresh)
        (s.enters group maybeFd fresh v.connections.victim.toList)
  | idle {i : Token} {maybeFd : Int} {fresh : Bundle} {group : ServerGroup}
      (hg : s.group.step (.accept i none) = some group) :
      s.Move (.accept i maybeFd fresh) { s with group }
  | group {l : ServerGroup.Label} {group : ServerGroup} (hserver : ∀ handler, l ≠ .server handler)
      (haccept : s.group.Serves l) (hg : s.group.step l = some group) :
      s.Move (.group l) { s with group }
  | destroy {i : Token} {v : Server} {a : Acceptor} (hv : s.group.servers[i]? = some v)
      (ha : s.acceptor i = some a) (hphase : v.phase = .accept) : s.Move (.destroy i) (s.destroy v a)
  | destroyMultiplexer {fd : Int} (hfd : s.epollFd = some fd) :
      s.Move .destroyMultiplexer { s with epollFd := none, fds := s.fds.close fd }
  | take {b : Bundle} {fd : Int} (hb : s.holds (.context b) = some fd) : s.Move (.take b) { s with
      sockets := Function.update s.sockets b .invalid
      application := fd :: s.application }
  | opens {fd : Int} (hfd : fd ∉ s.fds.opened) :
      s.Move (.opens fd) { s with application := fd :: s.application, fds := s.fds.enter fd }
  | closes {fd : Int} (hfd : fd ∈ s.application) : s.Move (.closes fd)
      { s with application := s.application.filter (· ≠ fd), fds := s.fds.close fd }

section Steps
variable {s t : Process} {l : Label}

theorem accept_cases {i : Token} {v : Server} {a : Acceptor} {maybeFd : Int} {fresh : Bundle}
    (hs : s.Wf) (hv : s.group.servers[i]? = some v) (ha : s.acceptor i = some a)
    (hfd : s.fds.Offers maybeFd) (h : s.accept v a maybeFd fresh = some t) :
    s.Move (.accept i maybeFd fresh) t := by
  have htoken : v.token = i := (hs.group.server i v hv).token
  have hempty := hs.buffered i a ha
  by_cases h0 : 0 ≤ maybeFd
  · obtain ⟨haccept,hresult⟩ := a.accept_result s.fds h0 hempty
    simp only [accept,haccept,hresult,Socket.move,Socket.destroy_invalid,htoken,
      acceptor_set_self ha] at h
    obtain ⟨group,hg,h⟩ := Option.bind_eq_some_iff.mp h
    cases h
    exact .accept hv (by simp [ha]) hg h0 (hfd h0)
  · simp only [accept,Acceptor.accept,h0,↓reduceIte,htoken,acceptor_set_self ha] at h
    obtain ⟨group,hg,h⟩ := Option.bind_eq_some_iff.mp h
    cases h
    exact .idle hg

theorem step_move (hs : s.Wf) (h : s.step l = some t) : s.Move l t := by
  cases l with
  | server handler ans =>
    simp only [step] at h
    split at h
    · rename_i hguard
      obtain ⟨group,hg,h⟩ := Option.bind_eq_some_iff.mp h
      rcases Acceptor.make_cases ans s.fds with ⟨e,hmake⟩ | ⟨h0,hmake⟩
      · rw [hmake] at h
        cases h
        exact .failed hg
      · rw [hmake] at h
        cases h
        exact .server hg h0 (hguard.2 h0)
    · cases h
  | accept i maybeFd fresh =>
    obtain ⟨v,hv,h⟩ := Option.bind_eq_some_iff.mp h
    obtain ⟨a,ha,h⟩ := Option.bind_eq_some_iff.mp h
    split at h
    · rename_i hfd
      exact accept_cases hs hv ha hfd h
    · cases h
  | group l =>
    simp only [step] at h
    split at h
    · cases h
    · cases h
    · rename_i hserver haccept
      split at h
      · obtain ⟨group,hg,h⟩ := Option.bind_eq_some_iff.mp h
        cases h
        refine .group hserver ?_ hg
        unfold ServerGroup.Serves
        split
        · exact haccept _ _ rfl
        · trivial
      · cases h
  | destroy i =>
    obtain ⟨v,hv,h⟩ := Option.bind_eq_some_iff.mp h
    obtain ⟨a,ha,h⟩ := Option.bind_eq_some_iff.mp h
    split at h
    · rename_i hphase
      cases h
      exact .destroy hv ha hphase
    · cases h
  | destroyMultiplexer =>
    simp only [step] at h
    split at h
    · rename_i fd hfd
      split at h
      · cases h
        exact .destroyMultiplexer hfd
      · cases h
    · cases h
  | take b =>
    by_cases hvalid : (s.sockets b).socketFd = Socket.INVALID_FD
    · simp [step,Socket.release,hvalid] at h
    · simp only [step,Socket.release,ne_eq,hvalid,not_false_eq_true,↓reduceIte] at h
      cases h
      exact .take (by simp [holds,Socket.held,hvalid])
  | opens fd =>
    simp only [step] at h
    split at h
    · rename_i hfd
      cases h
      exact .opens hfd
    · cases h
  | closes fd =>
    simp only [step] at h
    split at h
    · rename_i hfd
      cases h
      exact .closes hfd
    · cases h

theorem Wf.same (hs : s.Wf) (htight : Tight t.custody) (hgroup : t.group = s.group)
    (hacceptors : t.acceptors = s.acceptors)
    (hcontexts : ∀ b, t.holds (.context b) ≠ none → s.holds (.context b) ≠ none) : t.Wf := by
  have hat : ∀ i, t.acceptor i = s.acceptor i := fun i => by rw [acceptor,hacceptors]; rfl
  refine ⟨hgroup ▸ hs.group,htight,by rw [hacceptors,hgroup,hs.servers],fun i a ha => ?_,fun b hb => ?_⟩
  · exact hs.buffered i a (hat i ▸ ha)
  · obtain ⟨i,v,hv,ha,hb⟩ := hs.alive b (hcontexts b hb)
    exact ⟨i,v,hgroup ▸ hv,(congrArg Option.isSome (hat i)).trans ha,hb⟩

theorem Wf.keeps (hs : s.Wf) {group : ServerGroup} (hwf : group.Wf) (hk : s.group.Keeps group) :
    Wf { s with group } := by
  refine ⟨hwf,hs.tight,hs.servers.trans hk.servers.symm,hs.buffered,fun b hb => ?_⟩
  obtain ⟨i,v,hv,ha,hb⟩ := hs.alive b hb
  obtain ⟨v',hv',hsame⟩ := hk.alive i v hv
  exact ⟨i,v',hv',ha,(hsame b).trans hb⟩

theorem Wf.server (hs : s.Wf) {handler : Handler} {group : ServerGroup} {x : Option Acceptor}
    (hg : s.group.step (.server handler) = some group) (fds : Fds)
    (hx : ∀ a, x = some a → a.lastBufferedSocket = .invalid)
    (htight : Tight { s with group, acceptors := s.acceptors ++ [x], fds }.custody) :
    Wf { s with group, acceptors := s.acceptors ++ [x], fds } := by
  have hlength : group.servers.length = s.group.servers.length+1 := by
    cases hg
    simp
  refine ⟨hs.group.step hg,htight,by simp [hlength,hs.servers],fun i a ha => ?_,fun b hb => ?_⟩
  · have ha' : ((s.acceptors ++ [x])[i]?).join = some a := ha
    rw [acceptor_append] at ha'
    split at ha'
    · exact hx a ha'
    · exact hs.buffered i a ha'
  · obtain ⟨i,v,hv,ha,hb⟩ := hs.alive b hb
    obtain ⟨hlt,_⟩ := List.getElem?_eq_some_iff.mp hv
    refine ⟨i,v,?_,?_,hb⟩
    · cases hg
      exact (List.getElem?_append_left hlt).trans hv
    · have hne : i ≠ s.acceptors.length := hs.servers ▸ Nat.ne_of_lt hlt
      have hat : ((s.acceptors ++ [x])[i]?).join = s.acceptor i := by
        rw [acceptor_append,if_neg hne]
        rfl
      exact (congrArg Option.isSome hat).trans ha

theorem custody_enters (s : Process) (group : ServerGroup) {fd : Int} (fresh : Bundle)
    (victims : List Bundle) (h0 : 0 ≤ fd) : (s.enters group fd fresh victims).custody =
      (s.custody.acquire (.context fresh) fd).dropAll (victims.map .context) := by
  have hdestroy := custody_destroyPairs { s with
    group
    sockets := Function.update s.sockets fresh ⟨fd⟩
    fds := s.fds.enter fd } victims
  have henter := custody_enter_context s fresh h0
  exact hdestroy.trans (congrArg (Custody.dropAll · _) henter)

theorem Wf.context_free (hs : s.Wf) {b : Bundle} (hfree : s.group.Free b) :
    s.custody.holds (.context b) = none := by
  by_contra hne
  obtain ⟨j,w,hw,_,hb⟩ := hs.alive b hne
  simp [hfree w (List.mem_of_getElem? hw)] at hb

theorem Wf.accept (hs : s.Wf) {i : Token} {v : Server} {fd : Int} {fresh : Bundle}
    {group : ServerGroup} (hv : s.group.servers[i]? = some v) (ha : (s.acceptor i).isSome)
    (hg : s.group.step (.accept i (some fresh)) = some group) (h0 : 0 ≤ fd)
    (hfd : fd ∉ s.fds.opened) : Wf (s.enters group fd fresh v.connections.victim.toList) := by
  obtain ⟨hfree,hlength,hfresh,hspared⟩ := ServerGroup.accept_alive hs.group hv hg
  have hcustody := custody_enters s group fresh v.connections.victim.toList h0
  refine ⟨hs.group.step hg,?_,hs.servers.trans hlength.symm,hs.buffered,fun b hb => ?_⟩
  · rw [hcustody]
    exact (hs.tight.acquire (hs.context_free hfree) hfd).dropAll _
  · have hat := congrFun (congrArg Custody.holds hcustody) (.context b)
    rw [dropAll_holds] at hat
    have hb' : (s.enters group fd fresh v.connections.victim.toList).custody.holds (.context b) ≠ none := hb
    rw [hat] at hb'
    split at hb'
    · exact absurd rfl hb'
    · rename_i hnot
      by_cases hbf : b = fresh
      · subst hbf
        obtain ⟨w,hw,halive⟩ := hfresh
        exact ⟨i,w,hw,ha,halive⟩
      · have hold : s.holds (.context b) ≠ none := by
          simpa [Custody.acquire,custody,hbf] using hb'
        obtain ⟨j,w,hw,haj,halive⟩ := hs.alive b hold
        have hne : v.connections.victim ≠ some b := fun he => hnot (by simp [he])
        obtain ⟨w',hw',halive'⟩ := hspared j w b hw halive hne
        exact ⟨j,w',hw',haj,halive'⟩

theorem custody_destroy_server (hs : s.Wf) {i : Token} {v : Server} {a : Acceptor}
    (hv : s.group.servers[i]? = some v) (ha : s.acceptor i = some a) : (s.destroy v a).custody =
      (s.custody.dropAll ((v.connections.pool.container.filterMap id).map .context)).drop
        (.listenDescriptor i) := by
  have htoken : v.token = i := (hs.group.server i v hv).token
  have hpairs := custody_destroyPairs s (v.connections.pool.container.filterMap id)
  have hacceptor := custody_destroy (s := { s with
    sockets := ((v.connections.pool.container.filterMap id).foldl destroyPair (s.sockets,s.fds)).1
    fds := ((v.connections.pool.container.filterMap id).foldl destroyPair (s.sockets,s.fds)).2 })
    (s.group.put { v with connections := .init, eventBuffer := [] }) ha (hs.buffered i a ha)
  rw [hpairs] at hacceptor
  rw [← hacceptor,← htoken]
  rfl

theorem Wf.destroy (hs : s.Wf) {i : Token} {v : Server} {a : Acceptor}
    (hv : s.group.servers[i]? = some v) (ha : s.acceptor i = some a) (hphase : v.phase = .accept) :
    (s.destroy v a).Wf := by
  have hwf := hs.group.server i v hv
  have htoken : v.token = i := hwf.token
  have hcustody := custody_destroy_server hs hv ha
  have hempty : Server.Wf { v with connections := .init, eventBuffer := [] } i :=
    ⟨htoken,Store.init_wf,by simp [Store.init],fun _ => rfl,by simp [hphase]⟩
  have hacceptors : ∀ j, (s.destroy v a).acceptor j = if j = i then none else s.acceptor j := by
    intro j
    rw [← acceptor_set ha none j,← htoken]
    rfl
  refine ⟨hs.group.put hv hempty (fun b hb => by simp [Store.init] at hb),?_,?_,fun j c hc => ?_,
    fun b hb => ?_⟩
  · rw [hcustody]
    exact (hs.tight.dropAll _).drop _
  · have hlength := s.group.put_length { v with connections := .init, eventBuffer := [] }
    simpa [Process.destroy,hlength] using hs.servers
  · rw [hacceptors] at hc
    split at hc
    · cases hc
    · exact hs.buffered j c hc
  · have hat := congrFun (congrArg Custody.holds hcustody) (.context b)
    rw [drop_holds,Function.update_of_ne (by simp),dropAll_holds] at hat
    have hb' : (s.destroy v a).custody.holds (.context b) ≠ none := hb
    rw [hat] at hb'
    split at hb'
    · exact absurd rfl hb'
    · rename_i hnot
      obtain ⟨j,w,hw,haj,halive⟩ := hs.alive b hb'
      have hji : j ≠ i := by
        rintro rfl
        obtain rfl := Option.some.inj (hv.symm.trans hw)
        have hpos : 0 < v.connections.pool.container.count (some b) := by
          rw [hwf.store.owned,if_pos halive]
          exact Nat.one_pos
        exact hnot (by simpa using List.count_pos_iff.mp hpos)
      have hput := ServerGroup.put_servers hv hempty.token j
      exact ⟨j,w,hput.trans ((if_neg (Ne.symm hji)).trans hw),by rw [hacceptors,if_neg hji]; exact haj,
        halive⟩

theorem Wf.step (hs : s.Wf) (h : s.step l = some t) : t.Wf := by
  cases step_move hs h with
  | server hg h0 hfd =>
    refine hs.server hg _ (fun a ha => by cases ha; rfl) ?_
    rw [custody_server _ h0]
    exact hs.tight.acquire (by simp [custody,holds,acceptor_new]) hfd
  | failed hg => exact hs.server hg _ (fun a ha => by cases ha) (by rw [custody_failed]; exact hs.tight)
  | accept hv ha hg h0 hfd => exact hs.accept hv ha hg h0 hfd
  | idle hg => exact hs.keeps (hs.group.step hg) (ServerGroup.step_keeps hs.group (by simp) (by exact trivial) hg)
  | group hserver haccept hg =>
    exact hs.keeps (hs.group.step hg) (ServerGroup.step_keeps hs.group hserver haccept hg)
  | destroy hv ha hphase => exact hs.destroy hv ha hphase
  | destroyMultiplexer hfd =>
    exact hs.same (by rw [custody_destroyMultiplexer hfd]; exact hs.tight.drop _) rfl rfl (fun _ hb => hb)
  | take hb =>
    rename_i b fd
    have hnot : fd ∉ s.application := by
      intro hfd
      have happlication : s.custody.holds (.application fd) = some fd := by simp [custody,holds,hfd]
      cases hs.tight.placed (.context b) (.application fd) fd hb happlication
    refine hs.same ?_ rfl rfl (fun c hc => ?_)
    · rw [custody_take hb hnot]
      exact hs.tight.swap _ _
    · intro hnone
      have hc' : ((Function.update s.sockets _ Socket.invalid) c).held ≠ none := hc
      rw [Function.update_apply] at hc'
      split at hc'
      · exact hc' Socket.held_invalid
      · exact hc' hnone
  | opens hfd =>
    refine hs.same ?_ rfl rfl (fun _ hb => hb)
    rw [custody_opens]
    refine hs.tight.acquire ?_ hfd
    by_contra hne
    obtain ⟨k,hk⟩ := Option.ne_none_iff_exists'.mp hne
    have hopen := hs.tight.open_of_held hk
    simp only [custody,holds] at hk
    split at hk
    · cases hk
      exact hfd hopen
    · cases hk
  | closes hfd =>
    exact hs.same (by rw [custody_closes hfd]; exact hs.tight.drop _) rfl rfl (fun _ hb => hb)

theorem init_wf (epollFd : Int) : (init epollFd).Wf := by
  have hcustody : (init epollFd).custody = (⟨fun _ => none,[],[]⟩ : Custody Place Int).acquire .epoll epollFd := by
    refine custody_ext (fun p => ?_) rfl rfl
    cases p <;> rfl
  refine ⟨ServerGroup.init_wf,?_,rfl,by simp [init,acceptor],?_⟩
  · rw [hcustody]
    exact empty_tight.acquire rfl (by simp)
  · exact fun b hb => absurd rfl hb

end Steps

/-- Every open descriptor has one owner, every owner's is open, and none was closed
that was not open. -/
structure Owned (s : Process) : Prop where
  stray : s.fds.stray = []
  nodup : s.fds.opened.Nodup
  owner : ∀ fd ∈ s.fds.opened, ∃! p, s.holds p = some fd
  opened : ∀ p fd, s.holds p = some fd → fd ∈ s.fds.opened
  buffered : ∀ i, s.holds (.lastBufferedSocket i) = none
  connection : ∀ b fd, s.holds (.context b) = some fd → ∃ (i : Token) (v : Server),
    s.group.servers[i]? = some v ∧ (s.acceptor i).isSome ∧ (v.connections.heap b).isSome
  /-- servers and multiplexers leave nothing behind -/
  gone : s.epollFd = none → (∀ i, s.acceptor i = none) →
    ∀ fd, fd ∈ s.fds.opened ↔ fd ∈ s.application

inductive Closes (s : Process) : Label → Int → Prop where
  | recycled {i : Token} {v : Server} {b fresh : Bundle} {maybeFd fd : Int}
      (hv : s.group.servers[i]? = some v) (hvictim : v.connections.victim = some b)
      (hreusable : Pool.isReusable v.connections.heap (some b) = true)
      (hfd : s.holds (.context b) = some fd) : s.Closes (.accept i maybeFd fresh) fd
  | connection {i : Token} {v : Server} {b : Bundle} {fd : Int} (hv : s.group.servers[i]? = some v)
      (hb : (v.connections.heap b).isSome) (hfd : s.holds (.context b) = some fd) :
      s.Closes (.destroy i) fd
  | listener {i : Token} {fd : Int} (hfd : s.holds (.listenDescriptor i) = some fd) :
      s.Closes (.destroy i) fd
  | multiplexer {fd : Int} (hfd : s.epollFd = some fd) : s.Closes .destroyMultiplexer fd
  | application {fd : Int} (hfd : fd ∈ s.application) : s.Closes (.closes fd) fd

section Closes
variable {s t : Process} {l : Label}

theorem Wf.owned (hs : s.Wf) : s.Owned where
  stray := hs.tight.stray
  nodup := hs.tight.nodup
  owner _ hfd := hs.tight.owner hfd
  opened _ _ hp := hs.tight.open_of_held hp
  buffered i := by
    simp only [holds]
    cases ha : s.acceptor i with
    | none => rfl
    | some a => simp [hs.buffered i a ha,Socket.held_invalid]
  connection b fd hb := hs.alive b (by simp [hb])
  gone hepoll hnone fd := by
    refine (hs.tight.held fd).trans ⟨fun ⟨p,hp⟩ => ?_,fun h => ⟨.application fd,by simp [custody,holds,h]⟩⟩
    cases p with
    | epoll => simp [custody,holds,hepoll] at hp
    | listenDescriptor i => simp [custody,holds,hnone] at hp
    | lastBufferedSocket i => simp [custody,holds,hnone] at hp
    | context b =>
      obtain ⟨i,v,_,ha,_⟩ := hs.alive b (by rw [show s.holds (.context b) = some fd from hp]; simp)
      simp [hnone] at ha
    | application k =>
      simp only [custody,holds] at hp
      split at hp
      · rename_i hk
        exact Option.some.inj hp ▸ hk
      · cases hp

theorem mem_bundles {v : Server} {i : Token} (hv : v.Wf i) {b : Bundle}
    (hb : b ∈ v.connections.pool.container.filterMap id) : (v.connections.heap b).isSome :=
  hv.store.owner (by simpa using hb)

theorem Wf.closes (hs : s.Wf) (h : s.step l = some t) {fd : Int} (hopen : fd ∈ s.fds.opened)
    (hclosed : fd ∉ t.fds.opened) : s.Closes l fd := by
  have hcustody : fd ∉ t.custody.opened := hclosed
  cases step_move hs h with
  | server => exact absurd (List.mem_cons_of_mem _ hopen) hclosed
  | failed => exact absurd hopen hclosed
  | accept hv ha hg h0 hfd =>
    rename_i i v maybeFd fresh group
    obtain ⟨hfree,_⟩ := ServerGroup.accept_alive hs.group hv hg
    have htight := hs.tight.acquire (hs.context_free hfree) hfd
    rw [custody_enters s group fresh _ h0] at hcustody
    obtain ⟨p,hp,hfd'⟩ := htight.dropAll_closes (List.mem_cons_of_mem _ hopen) hcustody
    obtain ⟨b,hb,rfl⟩ := List.mem_map.mp hp
    have hvictim : v.connections.victim = some b := by simpa using hb
    have hbf : b ≠ fresh := fun he =>
      (hs.group.server i v hv).store.victim_ne (hfree v (List.mem_of_getElem? hv)) (he ▸ hvictim)
    exact .recycled hv hvictim (Store.victim_reusable hvictim)
      (by simpa [Custody.acquire,custody,hbf] using hfd')
  | idle => exact absurd hopen hclosed
  | group => exact absurd hopen hclosed
  | destroy hv ha hphase =>
    rename_i i v a
    rw [custody_destroy_server hs hv ha] at hcustody
    have htight := hs.tight.dropAll ((v.connections.pool.container.filterMap id).map .context)
    by_cases hmid : fd ∈ (s.custody.dropAll ((v.connections.pool.container.filterMap id).map .context)).opened
    · have hlisten := htight.drop_closes hmid hcustody
      rw [dropAll_holds,if_neg (by simp)] at hlisten
      exact .listener hlisten
    · obtain ⟨p,hp,hfd⟩ := hs.tight.dropAll_closes hopen hmid
      obtain ⟨b,hb,rfl⟩ := List.mem_map.mp hp
      exact .connection hv (mem_bundles (hs.group.server i v hv) hb) hfd
  | destroyMultiplexer hfd =>
    rw [custody_destroyMultiplexer hfd] at hcustody
    exact .multiplexer (hs.tight.drop_closes hopen hcustody)
  | take => exact absurd hopen hclosed
  | opens => exact absurd (List.mem_cons_of_mem _ hopen) hclosed
  | closes hfd =>
    rw [custody_closes hfd] at hcustody
    have hheld := hs.tight.drop_closes hopen hcustody
    simp only [custody,holds,hfd,↓reduceIte,Option.some.injEq] at hheld
    exact hheld ▸ .application hfd

theorem Wf.stays (hs : s.Wf) (h : s.step l = some t) {b : Bundle} {fd : Int}
    (hb : s.holds (.context b) = some fd) (hopen : fd ∈ t.fds.opened) :
    t.holds (.context b) = some fd ∨ l = .take b := by
  have hcustody : fd ∈ t.custody.opened := hopen
  cases step_move hs h with
  | accept hv ha hg h0 hfd =>
    rename_i i v maybeFd fresh group
    obtain ⟨hfree,_⟩ := ServerGroup.accept_alive hs.group hv hg
    have htight := hs.tight.acquire (hs.context_free hfree) hfd
    have hbf : b ≠ fresh := by
      rintro rfl
      cases hb.symm.trans (hs.context_free hfree)
    have hacquired : (s.custody.acquire (.context fresh) maybeFd).holds (.context b) = some fd := by
      simpa [Custody.acquire,custody,hbf] using hb
    have hat := congrFun (congrArg Custody.holds (custody_enters s group fresh
      v.connections.victim.toList h0)) (.context b)
    rw [custody_enters s group fresh _ h0] at hcustody
    exact .inl (hat.trans (htight.dropAll_stays hacquired hcustody))
  | destroy hv ha hphase =>
    rename_i i v a
    have hat := congrFun (congrArg Custody.holds (custody_destroy_server hs hv ha)) (.context b)
    rw [drop_holds,Function.update_of_ne (by simp)] at hat
    rw [custody_destroy_server hs hv ha,(hs.tight.dropAll _).drop_opened] at hcustody
    exact .inl (hat.trans (hs.tight.dropAll_stays hb hcustody.1))
  | take hc =>
    rename_i c k
    by_cases hbc : b = c
    · exact .inr (hbc ▸ rfl)
    · exact .inl (by simpa [holds,hbc] using hb)
  | server => exact .inl hb
  | failed => exact .inl hb
  | idle => exact .inl hb
  | group => exact .inl hb
  | destroyMultiplexer => exact .inl hb
  | opens => exact .inl hb
  | closes => exact .inl hb

/-- However servers and connections come and go, every open descriptor has one owner,
and a step closes one only with what owns it: a connection that is recycled (closed, with
nobody holding it) or goes with its server, a listener, the multiplexer, the application. -/
theorem descriptors_owned (epollFd : Int) (s : Process) (hs : Path step Any (init epollFd) s) :
    s.Owned ∧ ∀ l t, s.step l = some t →
      (∀ fd ∈ s.fds.opened, fd ∉ t.fds.opened → s.Closes l fd) ∧
      ∀ b fd, s.holds (.context b) = some fd → fd ∈ t.fds.opened →
        t.holds (.context b) = some fd ∨ l = .take b := by
  have hwf : s.Wf := hs.keeps (fun _ _ _ _ he hi => hi.step he) (init_wf epollFd)
  exact ⟨hwf.owned,fun l t h => ⟨fun fd => hwf.closes h,fun b fd => hwf.stays h⟩⟩

/-- Two servers of which one cannot bind, two connections of which the application takes
one, and the end of all that owns a descriptor. -/
def lifetime : List Label :=
  [.server .all ⟨4,0,0,0,0⟩,.server .all ⟨5,0,0,0,EADDRINUSE⟩,.accept 0 5 70,
   .group (.newContext 0 none .silent),.group (.swap 0),.group (.loop 0),.accept 0 6 71,
   .group (.newContext 0 none .silent),.group (.swap 0),.group (.loop 0),.take 70,
   .accept 0 (-1) 72,.group (.swap 0),.group (.loop 0),.closes 5,.opens 5,.destroy 0]

theorem descriptors_owned_lifetime : ∃ s : Process, s.fds.opened = [5,3] ∧ s.Owned := by
  have hrun : (run step Any (init 3) lifetime).any (fun s => s.fds.opened = [5,3]) := by
    decide +kernel
  obtain ⟨s,hs,hopened⟩ := (Option.any_eq_true _ _).mp hrun
  exact ⟨s,of_decide_eq_true hopened,(descriptors_owned 3 s (run_path hs)).1⟩

end Closes

end Process

end FluentNet
