import FluentNet.Handler.EpollMirror
import FluentNet.Handler.Interest
set_option autoImplicit false

/-! What a batch of events leaves of a connection when one of them is fatal. -/

namespace FluentNet
open Throwing Relation Runs

def readsOn (revent : EventBitmap) : Bool :=
  !hasBits revent (POLLERR ||| POLLNVAL) && hasBits revent (POLLIN ||| POLLPRI ||| POLLRDHUP)

def Handler.beforeWrite (h : Handler) (revent : EventBitmap) (env : EventEnv) : ConnAct Unit := do
  Act.onlyIf (Handler.hungUp revent) (h.handleClose env.hup)
  Act.onlyIf (hasBits revent (POLLERR ||| POLLNVAL)) Handler.handleError
  Act.onlyIf (hasBits revent (POLLIN ||| POLLPRI ||| POLLRDHUP)) (h.handleRead env)

/-- The event carries an error bit, or its read or its buffered write fails for good. -/
def Conn.Fatal (h : Handler) (s : Conn) : Delivery → Prop
  | .other _ => False
  | .event revent env =>
      hasBits revent (POLLERR ||| POLLNVAL) = true ∨
      (readsOn revent = true ∧ ∃ err, env.read = .fails err ∧ err ≠ EAGAIN ∧ err ≠ EINTR) ∨
      (hasBits revent POLLOUT = true ∧ ∃ t err, h.beforeWrite revent env s = (.ok (),t) ∧
        writeEnabled t.events = true ∧ env.write.Fatal err)

def Conn.Fails (h : Handler) : Conn → List Delivery → Prop
  | _, [] => False
  | s, d :: ds => s.Fatal h d ∨ Conn.Fails h (d.exec h s).2 ds

structure Conn.Released (h : Handler) (t : Conn) : Prop where
  state : t.nState = .disconnected
  absent : t.interest = none
  closes : t.log.count .close = if h.closeFlag then 1 else 0

/-- The event leads to `handleClose`: by a hang-up, or by a read that returns 0. -/
def Delivery.Closes : Delivery → Prop
  | .other _ => False
  | .event revent env =>
      Handler.hungUp revent = true ∨ (readsOn revent = true ∧ env.read = .data [])

/-- The first event of the batch that closes the connection finds `_eState` `ADDED`. -/
def Conn.ClosedBy (h : Handler) : Conn → List Delivery → Prop
  | _, [] => False
  | s, d :: ds => (d.Closes ∧ s.eState = .added) ∨ (¬d.Closes ∧ Conn.ClosedBy h (d.exec h s).2 ds)

/-- What may happen to a context once `handleNewContext` has been called for it. -/
def Op.Later (_ : Conn) : Op → Prop
  | .handleNewContext _ _ => False
  | _ => True

instance (s : Conn) (op : Op) : Decidable (op.Later s) := by
  cases op <;> simp only [Op.Later] <;> infer_instance

section Invariants
variable {h : Handler} {strict : Prop} {s t : Conn}

def Conn.Counted (h : Handler) (s : Conn) : Prop :=
  s.log.count .close = if s.nState = .disconnected ∧ h.closeFlag then 1 else 0

theorem begun_counted (h : Handler) (ctl : CtlAnswer) : (h.begun ctl).Counted h := by
  rcases begun_cases h ctl with ⟨err,_,hb⟩ | ⟨_,hb⟩ <;> rw [hb]
  · rfl
  · cases h.connectFlag <;> simp [Conn.Counted,Conn.opened]

theorem Micro.counted (hm : Micro h strict s t) (hs : s.Counted h) : t.Counted h := by
  have hframe : ∀ t, s.SameLife t → t.Counted h := by
    intro t hl
    rw [Conn.Counted,hl.log,hl.nState]
    exact hs
  cases hm with
  | send buf ans ctl => exact hframe _ (send_life buf ans ctl s)
  | shutdown =>
    rcases shutdown_cases s with ⟨_,he⟩ | ⟨hc,_,he⟩ | ⟨hc,_,he⟩ <;> rw [he]
    · exact hs
    · simpa [Conn.Counted,hc] using hs
    · simpa [Conn.Counted,hc] using hs
  | loopPass =>
    rcases loopPass_cases s with ⟨_,he⟩ | ⟨_,_,he⟩ | ⟨_,_,he⟩ <;> rw [he]
    · exact hs
    · exact hs
    · simpa [Conn.Counted,List.count_replicate] using hs
  | write ans ctl => exact hframe _ (handleWrite_life ans ctl s)
  | read ans =>
    rcases readInput_cases ans s with ⟨i,e,he,_⟩ | ⟨i,n,he,_⟩ <;> rw [he] <;> exact hs
  | hangUp => exact hs
  | message => simpa [Conn.Counted] using hs
  | unwatch ctl e _ hu => exact hframe _ (unwatch_life hu)
  | close ctl hd _ hu =>
    have hl := hframe _ (unwatch_life hu)
    have hn := (unwatch_life hu).nState.trans hd
    cases hf : h.closeFlag <;> simp [Conn.Counted,Conn.closed,hf,hn] at hl ⊢ <;> exact hl
  | caught => exact hs

theorem Micro.epoll (hm : Micro h strict s t) : ReflTransGen EpollStep s t := by
  cases hm with
  | send buf ans ctl => exact send_epoll buf ans ctl s
  | shutdown => exact shutdown_follows_epoll s
  | loopPass => exact loopPass_epoll s
  | write ans ctl => exact handleWrite_epoll ans ctl s
  | read ans => exact readInput_epoll ans s
  | hangUp => exact .single (.frame ⟨rfl,rfl,rfl,rfl⟩)
  | message => exact .single (.frame ⟨rfl,rfl,rfl,rfl⟩)
  | unwatch ctl e _ hu =>
    have hp := unwatch_epoll ctl s
    rwa [hu] at hp
  | close ctl _ _ hu =>
    have hp := unwatch_epoll ctl s
    rw [hu] at hp
    exact hp.tail (.frame ⟨rfl,rfl,rfl,rfl⟩)
  | caught => exact .single (.frame ⟨rfl,rfl,rfl,rfl⟩)

theorem Micro.allOk (hm : Micro h strict s t) (ht : t.AllOk) : s.AllOk := by
  have hp := path_keeps (I := fun t : Conn => s.ctls <+: t.ctls)
    (fun _ _ hst hi => hi.trans hst.grows) hm.epoll List.prefix_rfl
  exact fun c hc => ht c (hp.subset hc)

theorem Micro.mapped (hm : Micro h strict s t) (hs : s.Mapped) : t.Mapped :=
  path_keeps (fun _ _ hst hi => hst.mapped hi) hm.epoll hs

theorem newContext_counted (h : Handler) (ctl : CtlAnswer) (cb : Callback) :
    (h.handleNewContext ctl cb Conn.init).2.Counted h := by
  have hpath : ReflTransGen (Micro h False) (h.begun ctl) _ := handleNewContext_path ctl cb
  exact path_keeps (fun _ _ hm hi => hm.counted hi) hpath (begun_counted h ctl)

theorem newContext_mapped (h : Handler) (ctl : CtlAnswer) (cb : Callback) :
    (h.handleNewContext ctl cb Conn.init).2.Mapped := by
  have hinit : Conn.init.Mapped :=
    ⟨.inl rfl,fun _ => ⟨by simp [Conn.init,Context.init],by simp [Conn.init]⟩⟩
  exact path_keeps (fun _ _ hst hi => hst.mapped hi) (handleNewContext_epoll ctl cb _) hinit

theorem exec_counted {op : Op} (hop : op.Later s) (hs : s.Counted h) : (op.exec h s).2.Counted h := by
  by_cases hrun : op.Running
  · have hpath : ReflTransGen (Micro h False) s (op.exec h s).2 := exec_path hrun False.elim
    exact path_keeps (fun _ _ hm hi => hm.counted hi) hpath hs
  · cases op with
    | interest switch ctl =>
      obtain ⟨hn,hlog,_,_⟩ := updateEvents_life ctl { s with events := switch.apply s.events }
      change (updateEvents ctl { s with events := switch.apply s.events }).2.Counted h
      rw [Conn.Counted,hn,hlog]
      exact hs
    | handleNewContext => exact hop.elim
    | _ => exact absurd trivial hrun

structure Conn.Retired (s : Conn) : Prop where
  state : s.nState = .disconnected
  unarmed : writeEnabled s.events = false

theorem Conn.Retired.frame (hs : s.Retired) (hl : s.SameEpoll t) (hn : t.nState = s.nState) :
    t.Retired ∧ t.interest = s.interest :=
  ⟨⟨hn.trans hs.state,by rw [hl.events]; exact hs.unarmed⟩,hl.interest⟩

theorem Micro.retired (hm : Micro h strict s t) (hs : s.Retired) : t.Retired ∧ t.interest = s.interest := by
  cases hm with
  | send buf ans ctl =>
    rw [send_left buf ans ctl s (.inr hs.state)]
    exact ⟨hs,rfl⟩
  | shutdown =>
    rcases shutdown_cases s with ⟨_,he⟩ | ⟨hc,_,_⟩ | ⟨hc,_,_⟩
    · rw [he]
      exact ⟨hs,rfl⟩
    · simp [hs.state] at hc
    · simp [hs.state] at hc
  | loopPass =>
    rcases loopPass_cases s with ⟨_,he⟩ | ⟨_,_,he⟩ | ⟨_,_,he⟩ <;> rw [he] <;>
      exact hs.frame ⟨rfl,rfl,rfl,rfl⟩ rfl
  | write ans ctl =>
    rcases handleWrite_cases ans ctl s with ⟨_,he⟩ | ⟨hw,_⟩ | ⟨hw,_⟩ | ⟨hw,_⟩
    · rw [he]
      exact ⟨hs,rfl⟩
    · simp [hs.unarmed] at hw
    · simp [hs.unarmed] at hw
    · simp [hs.unarmed] at hw
  | read ans =>
    rcases readInput_cases ans s with ⟨i,e,he,_⟩ | ⟨i,n,he,_⟩ <;> rw [he] <;>
      exact hs.frame ⟨rfl,rfl,rfl,rfl⟩ rfl
  | hangUp => exact hs.frame ⟨rfl,rfl,rfl,rfl⟩ rfl
  | message => exact hs.frame ⟨rfl,rfl,rfl,rfl⟩ rfl
  | unwatch ctl e hd => simp [hs.state] at hd
  | close ctl hd => simp [hs.state] at hd
  | caught => exact hs.frame ⟨rfl,rfl,rfl,rfl⟩ rfl

/-- `updateEventState` deletes the registration of a fd that is `ADDED`, and adds any other with an empty mask. -/
theorem unwatch_retires (hm : Masked s.events) {ctl : CtlAnswer} (hu : Handler.unwatch ctl s = (.ok (),t)) :
    (t.closed h).Retired ∧ ((t.closed h).interest = none ↔ s.eState = .added) := by
  have hnone : disableWrite (disableRead s.events) = EVENT_NONE := by
    rcases hm with h0 | h0 | h0 | h0 <;> rw [h0] <;> decide
  rcases updateEvents_cases ctl { s with events := disableWrite (disableRead s.events) } with
    ⟨_,_,hc⟩ | ⟨_,_,hc⟩ <;> rw [Handler.unwatch,Act.modify_bind,hc] at hu <;> cases hu
  refine ⟨⟨rfl,writeEnabled_disableWrite _⟩,?_⟩
  by_cases he : s.eState = .added
  · simp [Conn.closed,updateEventState,he,hnone,EpollOperationHint.result]
  · simp [Conn.closed,updateEventState_absent he,he,EpollOperationHint.result]

end Invariants

section Batches
variable {h : Handler} {s t : Conn}

theorem open_of_life (hl : s.SameLife t) (hs : s.Open) : t.Open := by
  rwa [Conn.Open,hl.nState]

theorem send_open (buf : List UInt8) (ans : WriteAnswer) (ctl : CtlAnswer) :
    Follows (Keeps Conn.Open) (Context.send buf ans ctl) :=
  .of_keeps (fun s hs => open_of_life (send_life buf ans ctl s) hs)

theorem shutdown_open : Follows (Keeps Conn.Open) Context.shutdown :=
  .of_keeps (fun s hs => (shutdown_epoll s).2.mpr hs)

theorem handleRead_open {env : EventEnv} (hnot : env.read ≠ .data []) :
    Follows (Keeps Conn.Open) (h.handleRead env) := by
  refine .of_keeps (fun s hs => ?_)
  rcases readInput_cases env.read s with ⟨i,e,hr,_⟩ | ⟨i,n,hr,_,hz⟩
  · rw [Handler.handleRead,Act.bind_of_error hr]
    exact hs
  · rw [Handler.handleRead,Act.bind_of_ok hr]
    have hn : ¬n = 0 := fun h0 => hnot (hz.mp h0)
    have hrest : Follows (Keeps Conn.Open) (if n > 0 then Act.onlyIf h.messageFlag (do
        record .message
        env.message.exec)
      else if n = 0 then h.handleClose env.fin
      else Act.onlyIf (env.read.errno ≠ EAGAIN ∧ env.read.errno ≠ EINTR) Handler.handleError) := by
      rw [if_neg hn]
      split
      · have hrecord : Follows (Keeps Conn.Open) (record .message) := .of_keeps (fun _ hs => hs)
        exact .onlyIf (fun _ => hrecord.bind (fun _ =>
          callback_follows send_open shutdown_open env.message))
      · exact .onlyIf (fun _ => .throw _)
    exact hrest.keeps_inv hs

theorem dispatch_open {revent : EventBitmap} {env : EventEnv}
    (hnot : ¬(Delivery.event revent env).Closes) :
    Follows (Keeps Conn.Open) (h.dispatch revent env) := by
  obtain ⟨hup,hread⟩ := not_or.mp hnot
  have hfirst : Follows (Keeps Conn.Open) (Act.modify (fun s : Conn =>
      { s with eof := s.eof || Handler.hungUp revent }) : ConnAct Unit) := .of_keeps (fun _ hs => hs)
  have hcatch : ∀ e, Follows (Keeps Conn.Open) (Handler.catchException e) :=
    fun _ => .of_keeps (fun _ hs => hs)
  refine hfirst.bind (fun _ => Follows.attempt ?_ hcatch)
  rw [Handler.handleEvent,Act.onlyIf_false hup]
  refine (Follows.pure ()).bind (fun _ => ?_)
  have hwrite : Follows (Keeps Conn.Open)
      (Act.onlyIf (hasBits revent POLLOUT) (Handler.handleWrite env.write env.ctl)) :=
    .onlyIf (fun _ => .of_keeps (fun s hs => open_of_life (handleWrite_life _ _ s) hs))
  cases herr : hasBits revent (POLLERR ||| POLLNVAL) with
  | true => exact fun _ => .refl
  | false =>
    refine (Follows.pure ()).bind (fun _ => (Follows.onlyIf (fun hbits => ?_)).bind (fun _ => hwrite))
    exact handleRead_open (fun hr => hread ⟨by simp [readsOn,herr,hbits],hr⟩)

/-- Unless epoll refused, the connection is closed, and gone from the epoll set just
when it was `ADDED`. -/
def Conn.Done (added : Prop) (s : Conn) : Prop := s.AllOk → s.Retired ∧ (s.interest = none ↔ added)

variable {added : Prop}

theorem Conn.Done.path (hs : s.Done added) (hst : ReflTransGen (Micro h False) s t) : t.Done added := by
  intro ht
  have hok := path_keeps (I := fun u : Conn => u.AllOk → s.AllOk)
    (fun _ _ hm hi hu => hi (hm.allOk hu)) hst id
  obtain ⟨hretired,hgone⟩ := hs (hok ht)
  have hkept := path_keeps (I := fun u : Conn => u.Retired ∧ u.interest = s.interest)
    (fun _ _ hm hi => ⟨(hm.retired hi.1).1,(hm.retired hi.1).2.trans hi.2⟩) hst ⟨hretired,rfl⟩
  exact ⟨hkept.1,by rw [hkept.2]; exact hgone⟩

theorem handleClose_done (env : CloseEnv) (hs : s.Open) (hm : Masked s.events) :
    (h.handleClose env s).2.Done (s.eState = .added) := by
  have hl := (shutdown_epoll s).1
  rcases handleClose_cases h env s with ⟨hn,_⟩ | ⟨_,e,t,hu,he⟩ | ⟨_,t,hu,he⟩
  · exact absurd hs hn
  · rw [he]
    intro hok
    rw [Conn.AllOk,updateEvents_error_ctls hu] at hok
    exact absurd (hok _ (List.mem_append_right _ (List.mem_singleton_self _))) (by simp [Conn.ctlCall])
  · rw [he]
    have hclosed : (t.closed h).Done (s.eState = .added) := by
      intro _
      have hretires := unwatch_retires (h := h) (s := (Context.shutdown s).2) (by rw [hl.events]; exact hm) hu
      rwa [hl.eState] at hretires
    exact hclosed.path (h := h) (Follows.onlyIf (fun _ => callback_path env.callback) _)

theorem handleRead_done {env : EventEnv} (hr : env.read = .data []) (hs : s.Open) (hm : Masked s.events) :
    (h.handleRead env s).2.Done (s.eState = .added) := by
  rcases readInput_cases env.read s with ⟨i,e,_,hn⟩ | ⟨i,n,hi,_,hz⟩
  · exact absurd hr hn
  · have hn : n = 0 := hz.mpr hr
    subst hn
    rw [Handler.handleRead,Act.bind_of_ok hi]
    exact handleClose_done env.fin hs hm

theorem dispatch_done {revent : EventBitmap} {env : EventEnv} (hcl : (Delivery.event revent env).Closes)
    (hs : s.Open) (hm : Masked s.events) : (h.dispatch revent env s).2.Done (s.eState = .added) := by
  rw [Handler.dispatch,Act.modify_bind]
  have hcatch : ∀ e t, Conn.Done (s.eState = .added) t →
      Conn.Done (s.eState = .added) (Handler.catchException e t).2 :=
    fun e t ht hok => ⟨⟨(ht hok).1.state,(ht hok).1.unarmed⟩,(ht hok).2⟩
  refine attempt_keeps ?_ hcatch
  rw [Handler.handleEvent]
  cases hup : Handler.hungUp revent with
  | true =>
    rw [Act.onlyIf_true rfl]
    refine bind_keeps (I := Conn.Done (s.eState = .added)) (handleClose_done env.hup hs hm)
      (fun _ t ht => ht.path (h := h) ?_)
    exact handleRead_onward False.elim
  | false =>
    obtain ⟨hreads,hr⟩ := hcl.resolve_left (by simp [hup])
    obtain ⟨herr,hbits⟩ := Bool.and_eq_true_iff.mp hreads
    rw [Act.onlyIf_false (by decide),Act.onlyIf_false (by simpa using herr),Act.onlyIf_true hbits]
    exact bind_keeps (m := h.handleRead env) (I := Conn.Done (s.eState = .added)) (handleRead_done hr hs hm)
      (fun _ t ht => ht.path (h := h) (Follows.onlyIf (fun _ => write_follows env.write env.ctl) t))

theorem delivery_returns (d : Delivery) (s : Conn) : ∃ u, (d.exec h s).1 = .ok u := by
  cases d with
  | event revent env =>
    rw [Delivery.exec,Handler.dispatch,Act.modify_bind]
    exact Act.attempt_returns (fun _ _ => ⟨(),rfl⟩) _
  | other calls =>
    rw [Delivery.exec]
    induction calls generalizing s with
    | nil => exact ⟨(),rfl⟩
    | cons c calls ih =>
      have hc : ∃ u, (c.exec s).1 = .ok u := by
        cases c with
        | send buf ans ctl => exact Act.attempt_returns (fun _ _ => ⟨(),rfl⟩) _
        | shutdown => rcases shutdown_cases s with ⟨_,he⟩ | ⟨_,_,he⟩ | ⟨_,_,he⟩ <;> exact ⟨(),by
            rw [UserCall.exec,he]⟩
      obtain ⟨u,hu⟩ := hc
      rw [Act.each,Act.bind_of_ok (Prod.ext hu rfl)]
      exact ih _

theorem handleEvents_cons (d : Delivery) (ds : List Delivery) (s : Conn) :
    h.handleEvents (d :: ds) s = h.handleEvents ds (d.exec h s).2 := by
  obtain ⟨u,hu⟩ := delivery_returns (h := h) d s
  exact Act.bind_of_ok (Prod.ext hu rfl)

theorem delivery_path (d : Delivery) (s : Conn) :
    ReflTransGen (Micro h False) s (d.exec h s).2 := by
  cases d with
  | event revent env => exact dispatch_path revent env nofun
  | other calls => exact Follows.each (userCall_follows send_follows shutdown_follows) calls s

theorem handleEvents_path (ds : List Delivery) (s : Conn) :
    ReflTransGen (Micro h False) s (h.handleEvents ds s).2 := by
  induction ds generalizing s with
  | nil => exact .refl
  | cons d ds ih =>
    rw [handleEvents_cons]
    exact (delivery_path d s).trans (ih _)

theorem delivery_open {d : Delivery} (hnot : ¬d.Closes) (hs : s.Open) : (d.exec h s).2.Open := by
  cases d with
  | event revent env => exact (dispatch_open hnot).keeps_inv hs
  | other calls => exact (Follows.each (userCall_follows send_open shutdown_open) calls).keeps_inv hs

theorem delivery_done {d : Delivery} (hcl : d.Closes) (hs : s.Open) (hm : Masked s.events) :
    (d.exec h s).2.Done (s.eState = .added) := by
  cases d with
  | event revent env => exact dispatch_done hcl hs hm
  | other calls => exact hcl.elim

theorem delivery_mapped (d : Delivery) (hs : s.Mapped) : (d.exec h s).2.Mapped :=
  path_keeps (fun _ _ hm hi => hm.mapped hi) (delivery_path d s) hs

theorem handleEvents_closed_iff (ds : List Delivery) (hs : s.Open) (hm : s.Mapped)
    (hok : (h.handleEvents ds s).2.AllOk) :
    ((h.handleEvents ds s).2.nState = .disconnected ∧ (h.handleEvents ds s).2.interest = none) ↔
      s.ClosedBy h ds := by
  induction ds generalizing s with
  | nil =>
    have hn : s.nState ≠ .disconnected := by
      rcases hs with hs | hs <;> simp [hs]
    exact ⟨fun hd => absurd hd.1 hn,False.elim⟩
  | cons d ds ih =>
    rw [handleEvents_cons] at hok ⊢
    rw [Conn.ClosedBy]
    by_cases hcl : d.Closes
    · obtain ⟨hretired,hgone⟩ := (delivery_done (h := h) hcl hs hm.masked).path (handleEvents_path ds _) hok
      simp [hretired.state,hgone,hcl]
    · simpa [hcl] using ih (delivery_open hcl hs) (delivery_mapped d hm) hok

end Batches

/-- A fatal event releases the connection just when the batch closes it in some
other way, and finds it `ADDED`. -/
theorem fatal_released_iff_closes (h : Handler) (ctl : CtlAnswer) (cb : Callback) (s : Conn)
    (hs : Path (Conn.step h) (fun s op => op.Later s) (h.handleNewContext ctl cb Conn.init).2 s)
    (hopen : s.Open) (ds : List Delivery) (hok : (h.handleEvents ds s).2.AllOk) :
    (s.Fails h ds → (h.handleEvents ds s).2.Released h) ↔ (s.Fails h ds → s.ClosedBy h ds) := by
  have hrun := hs.keeps (I := fun s => s.Mapped ∧ s.Counted h) (fun s op _ hop he hi => by
    cases he
    exact ⟨path_keeps (fun _ _ hst hi => hst.mapped hi) (exec_epoll op s) hi.1,exec_counted hop hi.2⟩)
    ⟨newContext_mapped h ctl cb,newContext_counted h ctl cb⟩
  have hcount := path_keeps (fun _ _ hm hi => hm.counted hi) (handleEvents_path ds s) hrun.2
  have hrel : ((h.handleEvents ds s).2.nState = .disconnected ∧ (h.handleEvents ds s).2.interest = none) ↔
      (h.handleEvents ds s).2.Released h := by
    refine ⟨fun ⟨hd,hi⟩ => ⟨hd,hi,?_⟩,fun hr => ⟨hr.state,hr.absent⟩⟩
    simpa [Conn.Counted,hd] using hcount
  rw [← hrel,handleEvents_closed_iff ds hopen hrun.1 hok]

def EventEnv.calm : EventEnv where
  hup := ⟨none,.silent⟩
  read := .fails EAGAIN
  message := .silent
  fin := ⟨none,.silent⟩
  write := .accepts 0
  ctl := none

/-- The interest is off and on again before the hang-up comes. -/
theorem fatal_released_iff_closes_hungUp : ∃ s : Conn,
    ((Handler.all.handleEvents [.event (POLLERR ||| POLLHUP) .calm] s).2.Released .all ∧
      s.Fails .all [.event (POLLERR ||| POLLHUP) .calm]) ∧
    ((s.Fails .all [.event (POLLERR ||| POLLHUP) .calm] →
      (Handler.all.handleEvents [.event (POLLERR ||| POLLHUP) .calm] s).2.Released .all) ↔
    (s.Fails .all [.event (POLLERR ||| POLLHUP) .calm] →
      s.ClosedBy .all [.event (POLLERR ||| POLLHUP) .calm])) := by
  have hrun : (run (Conn.step .all) (fun s op => op.Later s)
      (Handler.all.handleNewContext none .silent Conn.init).2
      [.call (.send [1] (.accepts 0) none),.handleWrite (.accepts 1) none,
        .interest .disableRead none,.interest .enableRead none]).any
      (fun s => s.Open ∧ s.eState = .added ∧
        (Handler.all.handleEvents [.event (POLLERR ||| POLLHUP) .calm] s).2.AllOk) := by decide +kernel
  obtain ⟨s,hs,hcond⟩ := (Option.any_eq_true _ _).mp hrun
  obtain ⟨hopen,hadded,hok⟩ := of_decide_eq_true hcond
  have hiff := fatal_released_iff_closes .all none .silent s (run_path hs) hopen
    [.event (POLLERR ||| POLLHUP) .calm] hok
  have hfails : s.Fails .all [.event (POLLERR ||| POLLHUP) .calm] := .inl (.inl (by decide))
  have hcloses : s.ClosedBy .all [.event (POLLERR ||| POLLHUP) .calm] := .inl ⟨.inl (by decide),hadded⟩
  exact ⟨s,⟨hiff.mpr (fun _ => hcloses) hfails,hfails⟩,hiff⟩

/-- `handleError` throws, and nothing closes the connection. -/
theorem fatal_not_released : ¬∀ (h : Handler) (ctl : CtlAnswer) (cb : Callback) (s : Conn),
    Path (Conn.step h) (fun s op => op.Later s) (h.handleNewContext ctl cb Conn.init).2 s → s.Open →
      ∀ ds : List Delivery, (h.handleEvents ds s).2.AllOk → s.Fails h ds →
        (h.handleEvents ds s).2.Released h := by
  intro hall
  have hr := hall .all none .silent _ .refl (by decide +kernel) [.event POLLERR .calm] (by decide +kernel)
    (.inl (.inl (by decide)))
  exact absurd hr.state (by decide +kernel)

end FluentNet
