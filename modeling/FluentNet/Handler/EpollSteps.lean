import FluentNet.Handler.Steps
set_option autoImplicit false

/-! What one call can do to the registration of a connection's fd. -/

namespace FluentNet
open Throwing

def Conn.Open (s : Conn) : Prop := s.nState = .connected ∨ s.nState = .disconnecting

def Conn.AllOk (s : Conn) : Prop := ∀ c ∈ s.ctls, c.ok = true

instance (s : Conn) : Decidable s.Open := inferInstanceAs (Decidable (_ ∨ _))

instance (s : Conn) : Decidable s.AllOk := inferInstanceAs (Decidable (∀ c ∈ s.ctls, _))

structure Conn.SameEpoll (s t : Conn) : Prop where
  interest : t.interest = s.interest
  eState : t.eState = s.eState
  events : t.events = s.events
  ctls : t.ctls = s.ctls

/-- What an operation does to the registration, step by step: nothing, or some
switches of the interest and the update that follows them. -/
inductive EpollStep : Conn → Conn → Prop
  | frame {s t : Conn} : s.SameEpoll t → EpollStep s t
  | update {s : Conn} (switches : List Switch) (ctl : CtlAnswer) :
      EpollStep s (updateEvents ctl { s with
        events := switches.foldl (fun events switch => switch.apply events) s.events }).2

section EpollSteps
variable {h : Handler} {s t : Conn}

theorem Conn.SameEpoll.symm (hl : s.SameEpoll t) : t.SameEpoll s :=
  ⟨hl.interest.symm,hl.eState.symm,hl.events.symm,hl.ctls.symm⟩

theorem shutdown_epoll (s : Conn) :
    s.SameEpoll (Context.shutdown s).2 ∧ ((Context.shutdown s).2.Open ↔ s.Open) := by
  rcases shutdown_cases s with ⟨_,he⟩ | ⟨hc,_,he⟩ | ⟨hc,_,he⟩ <;> rw [he]
  · exact ⟨⟨rfl,rfl,rfl,rfl⟩,Iff.rfl⟩
  · exact ⟨⟨rfl,rfl,rfl,rfl⟩,by simp [Conn.Open,hc]⟩
  · exact ⟨⟨rfl,rfl,rfl,rfl⟩,by simp [Conn.Open,hc]⟩

theorem modify_epoll {f : Conn → Conn} (hf : ∀ s : Conn, s.SameEpoll (f s)) :
    Follows EpollStep (Act.modify f : ConnAct Unit) := .modify (fun s => .frame (hf s))

theorem enter_epoll (n : NetworkState) : Follows EpollStep (enter n) :=
  modify_epoll (fun _ => ⟨rfl,rfl,rfl,rfl⟩)

theorem record_epoll (e : Effect) : Follows EpollStep (record e) :=
  modify_epoll (fun _ => ⟨rfl,rfl,rfl,rfl⟩)

theorem catchException_epoll (e : Exn) : Follows EpollStep (Handler.catchException e) :=
  modify_epoll (fun _ => ⟨rfl,rfl,rfl,rfl⟩)

theorem armWrite_epoll (ctl : CtlAnswer) : Follows EpollStep (Context.armWrite ctl) := by
  intro s
  rcases armWrite_cases ctl s with ⟨_,ha⟩ | ⟨hw,ha⟩ <;> rw [ha]
  have harm : enableWrite s.events = s.events ||| EVENT_WRITE := by simp [enableWrite,hw]
  rw [← harm]
  exact .single (.update [.enableWrite] ctl)

theorem send_epoll (buf : List UInt8) (ans : WriteAnswer) (ctl : CtlAnswer) :
    Follows EpollStep (Context.send buf ans ctl) := by
  intro s
  by_cases hl : s.Left
  · rw [send_left _ _ _ _ hl]
  · rcases send_cases buf ans ctl s hl with ⟨_,_,he⟩ | ⟨_,_,he⟩ | ⟨_,_,_,o,_,he⟩ | ⟨_,_,o,_,he⟩ <;> rw [he]
    · exact .single (.frame ⟨rfl,rfl,rfl,rfl⟩)
    · exact .single (.frame ⟨rfl,rfl,rfl,rfl⟩)
    · rw [bind_pure_state]
      exact .head (.frame (t := s.queued (ans.taken buf) (ans.rest buf) o) ⟨rfl,rfl,rfl,rfl⟩)
        (armWrite_epoll ctl _)

theorem shutdown_follows_epoll : Follows EpollStep Context.shutdown :=
  fun s => .single (.frame (shutdown_epoll s).1)

theorem callback_epoll (cb : Callback) : Follows EpollStep cb.exec :=
  callback_follows send_epoll shutdown_follows_epoll cb

theorem handleWrite_epoll (ans : WriteAnswer) (ctl : CtlAnswer) :
    Follows EpollStep (Handler.handleWrite ans ctl) := by
  intro s
  rcases handleWrite_cases ans ctl s with ⟨_,he⟩ | ⟨_,_,_,he⟩ | ⟨_,_,_,he⟩ | ⟨_,_,he⟩ <;> rw [he]
  · exact .head (.frame (t := s.drained (ans.taken s.output.content)) ⟨rfl,rfl,rfl,rfl⟩)
      (.single (.update [.disableWrite] ctl))
  · exact .single (.frame ⟨rfl,rfl,rfl,rfl⟩)

theorem handleNewContext_epoll (ctl : CtlAnswer) (cb : Callback) :
    Follows EpollStep (h.handleNewContext ctl cb) := by
  have hwatch : Follows EpollStep (Handler.watch ctl) := fun s => .single (.update [.enableRead] ctl)
  refine Follows.attempt ?_ catchException_epoll
  refine (enter_epoll .connected).bind (fun _ => hwatch.bind (fun _ => .onlyIf (fun _ => ?_)))
  exact (record_epoll .connect).bind (fun _ => callback_epoll cb)

theorem unwatch_epoll (ctl : CtlAnswer) : Follows EpollStep (Handler.unwatch ctl) :=
  fun _ => .single (.update [.disableRead,.disableWrite] ctl)

theorem handleClose_epoll (env : CloseEnv) : Follows EpollStep (h.handleClose env) := by
  refine .get_bind (fun c => .onlyIf (fun _ => ?_))
  refine shutdown_follows_epoll.bind (fun _ => (unwatch_epoll env.ctl).bind (fun _ => ?_))
  refine (enter_epoll .disconnected).bind (fun _ => .onlyIf (fun _ => ?_))
  exact (record_epoll .close).bind (fun _ => callback_epoll env.callback)

theorem readInput_epoll (ans : ReadAnswer) : Follows EpollStep (Handler.readInput ans) := by
  intro s
  rcases readInput_cases ans s with ⟨i,e,he,_⟩ | ⟨i,n,he,_⟩ <;> rw [he] <;>
    exact .single (.frame ⟨rfl,rfl,rfl,rfl⟩)

theorem handleRead_epoll (env : EventEnv) : Follows EpollStep (h.handleRead env) := by
  refine (readInput_epoll env.read).bind (fun n => ?_)
  split
  · exact .onlyIf (fun _ => (record_epoll .message).bind (fun _ => callback_epoll env.message))
  · split
    · exact handleClose_epoll env.fin
    · exact .onlyIf (fun _ => .throw _)

theorem dispatch_epoll (revent : EventBitmap) (env : EventEnv) :
    Follows EpollStep (h.dispatch revent env) := by
  have hfirst : Follows EpollStep (Act.modify (fun s : Conn =>
      { s with eof := s.eof || Handler.hungUp revent }) : ConnAct Unit) :=
    modify_epoll (fun _ => ⟨rfl,rfl,rfl,rfl⟩)
  refine hfirst.bind (fun _ => Follows.attempt ?_ catchException_epoll)
  refine (Follows.onlyIf (fun _ => handleClose_epoll env.hup)).bind (fun _ => ?_)
  refine (Follows.onlyIf (fun _ => .throw _)).bind (fun _ => ?_)
  refine (Follows.onlyIf (fun _ => handleRead_epoll env)).bind (fun _ => ?_)
  exact .onlyIf (fun _ => handleWrite_epoll env.write env.ctl)

theorem loopPass_epoll : Follows EpollStep Context.loopPass := by
  intro s
  rcases loopPass_cases s with ⟨_,he⟩ | ⟨_,_,he⟩ | ⟨_,_,he⟩ <;> rw [he] <;>
    exact .single (.frame ⟨rfl,rfl,rfl,rfl⟩)

theorem exec_epoll (op : Op) : Follows EpollStep (op.exec h) := by
  cases op with
  | handleNewContext ctl cb => exact handleNewContext_epoll ctl cb
  | call c => exact userCall_follows send_epoll shutdown_follows_epoll c
  | handleWrite ans ctl => exact handleWrite_epoll ans ctl
  | handleClose env => exact handleClose_epoll env
  | event revent env => exact dispatch_epoll revent env
  | loopPass => exact loopPass_epoll
  | interest switch ctl => exact fun s => .single (.update [switch] ctl)

theorem EpollStep.grows {s t : Conn} (hst : EpollStep s t) : s.ctls <+: t.ctls := by
  cases hst with
  | frame hl =>
    exact hl.ctls ▸ List.prefix_rfl
  | update switches ctl =>
    obtain ⟨interest,ok,hu⟩ := updateEvents_frame ctl { s with
      events := switches.foldl (fun events switch => switch.apply events) s.events }
    rw [hu]
    exact List.prefix_append _ _

theorem execs_ctls_grow (ops : List Op) (s : Conn) : s.ctls <+: (s.execs h ops).ctls := by
  induction ops generalizing s with
  | nil => exact List.prefix_rfl
  | cons op ops ih =>
    have hop := path_keeps (I := fun t : Conn => s.ctls <+: t.ctls)
      (fun _ _ hst hi => hi.trans hst.grows) (exec_epoll (h := h) op s) List.prefix_rfl
    exact hop.trans (ih _)

end EpollSteps

end FluentNet
