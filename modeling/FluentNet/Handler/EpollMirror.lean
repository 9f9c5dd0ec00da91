import FluentNet.Handler.EpollSteps
set_option autoImplicit false

/-!
The registration in the epoll set against `_eState` and `_events`, which are moved
before epoll is asked.
-/

namespace FluentNet
open Throwing Runs

/-- The in-memory state says what the kernel has. -/
structure Conn.Mirrors (s : Conn) : Prop where
  registered : s.interest.isSome ↔ s.eState = .added
  mask : ∀ mask, s.interest = some mask → mask = s.events

def Conn.Legal (s : Conn) : Prop :=
  ∀ events, (updateEventState s.eState events).2.legal s.interest = true

/-- The call leaves the kernel with what it asked for: it was let through, or it
was to change a mask into itself. -/
def CtlCall.Kept (c : CtlCall) : Prop :=
  c.ok = true ∨ (c.op = .mod ∧ c.found = some c.mask)

structure Conn.Clean (s : Conn) : Prop where
  mirrors : s.Mirrors
  kept : ∀ c ∈ s.ctls, c.Kept
  watched : s.Open → s.eState = .added ∧ readEnabled s.events = true

structure Conn.Broken (s : Conn) : Prop where
  unmirrored : ¬s.Mirrors
  refused : ∃ c ∈ s.ctls, ¬c.Kept

section Updates
variable {ctl : CtlAnswer} {s t : Conn}

theorem legal_of_registered (hs : s.interest.isSome ↔ s.eState = .added) : s.Legal := by
  intro events
  by_cases he : s.eState = .added
  · obtain ⟨mask,hi⟩ := Option.isSome_iff_exists.mp (hs.mpr he)
    simp only [updateEventState,he,hi]
    split <;> rfl
  · have hi : s.interest = none := by simpa [he] using hs
    simp [updateEventState_absent he,hi,EpollOperationHint.legal]

theorem updateEvents_ok_mirrors {u : Unit} (h : updateEvents ctl s = (.ok u,t)) : t.Mirrors := by
  rcases updateEvents_cases ctl s with ⟨_,_,hu⟩ | ⟨_,_,hu⟩ <;> rw [hu] at h <;> cases h
  by_cases he : s.eState = .added
  · by_cases hn : s.events = EVENT_NONE
    · constructor <;> simp [updateEventState,he,hn,EpollOperationHint.result]
    · constructor <;> simp [updateEventState,he,hn,EpollOperationHint.result]
  · constructor <;> simp [updateEventState_absent he,EpollOperationHint.result]

/-- A failed call shows unless it was to change a mask into itself. -/
theorem updateEvents_error_mirrors (hs : s.interest.isSome ↔ s.eState = .added) {e : Exn}
    (h : updateEvents ctl s = (.error e,t)) : t.Mirrors ↔ (s.ctlCall false).Kept := by
  rcases updateEvents_cases ctl s with ⟨_,_,hu⟩ | ⟨_,_,hu⟩ <;> rw [hu] at h <;> cases h
  by_cases he : s.eState = .added
  · obtain ⟨mask,hi⟩ := Option.isSome_iff_exists.mp (hs.mpr he)
    by_cases hn : s.events = EVENT_NONE
    · have hno : ¬(s.ctlCall false).Kept := by
        simp [CtlCall.Kept,Conn.ctlCall,updateEventState,he,hn]
      exact ⟨fun hm => by simpa [updateEventState,he,hn,hi] using hm.registered,
        fun hk => absurd hk hno⟩
    · have hmod : (s.ctlCall false).Kept ↔ mask = s.events := by
        simp [CtlCall.Kept,Conn.ctlCall,updateEventState,he,hn,hi]
      rw [hmod]
      refine ⟨fun hm => hm.mask mask hi,fun hm => ⟨?_,?_⟩⟩
      · simp [updateEventState,he,hn,hi]
      · simp [hi,hm]
  · have hi : s.interest = none := by simpa [he] using hs
    have hno : ¬(s.ctlCall false).Kept := by
      simp [CtlCall.Kept,Conn.ctlCall,updateEventState_absent he]
    exact ⟨fun hm => by simpa [updateEventState_absent he,hi] using hm.registered,
      fun hk => absurd hk hno⟩

theorem updateEvents_error_ctls {e : Exn} (h : updateEvents ctl s = (.error e,t)) :
    t.ctls = s.ctls ++ [s.ctlCall false] := by
  rcases updateEvents_cases ctl s with ⟨_,_,hu⟩ | ⟨_,_,hu⟩ <;> rw [hu] at h <;> cases h
  rfl

theorem updateEvents_ok_ctls {u : Unit} (h : updateEvents ctl s = (.ok u,t)) :
    t.ctls = s.ctls ++ [s.ctlCall true] := by
  rcases updateEvents_cases ctl s with ⟨_,_,hu⟩ | ⟨_,_,hu⟩ <;> rw [hu] at h <;> cases h
  rfl

theorem kept_append {c : CtlCall} (hkept : ∀ c ∈ s.ctls, c.Kept) (hc : c.Kept) :
    ∀ d ∈ s.ctls ++ [c], d.Kept := by
  intro d hd
  rcases List.mem_append.mp hd with hd | hd
  · exact hkept d hd
  · rwa [List.mem_singleton.mp hd]

theorem updateEvents_clean_or_broken (hs : s.interest.isSome ↔ s.eState = .added)
    (hkept : ∀ c ∈ s.ctls, c.Kept) (hr : s.Open → readEnabled s.events = true) :
    (updateEvents ctl s).2.Clean ∨ (updateEvents ctl s).2.Broken := by
  have hwatched : s.Open →
      (updateEventState s.eState s.events).1 = .added ∧ readEnabled s.events = true := by
    intro ho
    refine ⟨?_,hr ho⟩
    by_cases he : s.eState = .added
    · simp [updateEventState,he,ne_none_of_readEnabled (hr ho)]
    · rw [updateEventState_absent he]
  obtain ⟨interest,ok,hframe⟩ := updateEvents_frame ctl s
  cases hu : updateEvents ctl s with
  | mk res t =>
  have ht : t.Open → t.eState = .added ∧ readEnabled t.events = true := by
    rw [hu] at hframe
    rw [show t = _ from hframe]
    exact hwatched
  cases res with
  | ok u =>
    refine .inl ⟨updateEvents_ok_mirrors hu,?_,ht⟩
    rw [updateEvents_ok_ctls hu]
    exact kept_append hkept (.inl rfl)
  | error e =>
    have hm := updateEvents_error_mirrors hs hu
    have hc := updateEvents_error_ctls hu
    by_cases hk : (s.ctlCall false).Kept
    · refine .inl ⟨hm.mpr hk,?_,ht⟩
      rw [hc]
      exact kept_append hkept hk
    · exact .inr ⟨fun h => hk (hm.mp h),s.ctlCall false,by simp [hc],hk⟩

end Updates

section Frames
variable {s t : Conn}

theorem Conn.Mirrors.frame (hs : s.Mirrors) (hl : s.SameEpoll t) : t.Mirrors :=
  ⟨by rw [hl.interest,hl.eState]; exact hs.registered,
    by rw [hl.interest,hl.events]; exact hs.mask⟩

theorem Conn.Clean.frame (hs : s.Clean) (hl : s.SameEpoll t) (ho : t.Open → s.Open) : t.Clean :=
  ⟨hs.mirrors.frame hl,by rw [hl.ctls]; exact hs.kept,
    by rw [hl.eState,hl.events]; exact fun h => hs.watched (ho h)⟩

theorem Conn.Broken.frame (hs : s.Broken) (hl : s.SameEpoll t) : t.Broken :=
  ⟨fun hm => hs.unmirrored (hm.frame hl.symm),by rw [hl.ctls]; exact hs.refused⟩

end Frames

def Conn.CleanOrStuck (s : Conn) : Prop := s.Clean ∨ (s.Broken ∧ writeEnabled s.events = true)

section Operations
variable {h : Handler} {s : Conn}

theorem Conn.CleanOrStuck.frame {t : Conn} (hs : s.CleanOrStuck) (hl : s.SameEpoll t)
    (ho : t.Open → s.Open) : t.CleanOrStuck :=
  hs.imp (fun hc => hc.frame hl ho) (fun ⟨hb,hw⟩ => ⟨hb.frame hl,by rw [hl.events]; exact hw⟩)

theorem Conn.CleanOrStuck.armWrite (hs : s.CleanOrStuck) (ctl : CtlAnswer) :
    (Context.armWrite ctl s).2.CleanOrStuck := by
  rcases armWrite_cases ctl s with ⟨_,ha⟩ | ⟨hw,ha⟩ <;> rw [ha]
  · exact hs
  · have hc : s.Clean := hs.resolve_right (fun hb => by simp [hw] at hb)
    refine (updateEvents_clean_or_broken (s := { s with events := s.events ||| EVENT_WRITE })
      hc.mirrors.registered hc.kept ?_).imp_right (fun hb => ⟨hb,?_⟩)
    · intro ho
      simpa using (hc.watched ho).2
    · obtain ⟨interest,ok,hu⟩ := updateEvents_frame ctl { s with events := s.events ||| EVENT_WRITE }
      rw [hu]
      exact writeEnabled_or_write s.events

theorem Conn.CleanOrStuck.send (hs : s.CleanOrStuck) (buf : List UInt8) (ans : WriteAnswer)
    (ctl : CtlAnswer) : (Context.send buf ans ctl s).2.CleanOrStuck := by
  by_cases hl : s.Left
  · rwa [send_left _ _ _ _ hl]
  · rcases send_cases buf ans ctl s hl with ⟨_,_,he⟩ | ⟨_,_,he⟩ | ⟨_,_,_,o,_,he⟩ | ⟨_,_,o,_,he⟩ <;> rw [he]
    · exact hs
    · exact hs.frame ⟨rfl,rfl,rfl,rfl⟩ id
    · exact hs.frame ⟨rfl,rfl,rfl,rfl⟩ id
    · rw [bind_pure_state]
      have hq : (s.queued (ans.taken buf) (ans.rest buf) o).CleanOrStuck :=
        hs.frame ⟨rfl,rfl,rfl,rfl⟩ id
      exact hq.armWrite ctl

theorem callback_keeps (cb : Callback) : Follows (Keeps Conn.CleanOrStuck) cb.exec :=
  callback_follows (fun buf ans ctl => Follows.of_keeps (fun _ hs => hs.send buf ans ctl))
    (Follows.of_keeps (fun s hs => hs.frame (shutdown_epoll s).1 (shutdown_epoll s).2.mp)) cb

theorem Conn.CleanOrStuck.clean_or_broken (hs : s.CleanOrStuck) : s.Clean ∨ s.Broken :=
  hs.imp_right And.left

theorem handleWrite_clean_or_broken (hs : s.Clean) (ans : WriteAnswer) (ctl : CtlAnswer) :
    (Handler.handleWrite ans ctl s).2.Clean ∨ (Handler.handleWrite ans ctl s).2.Broken := by
  rcases handleWrite_cases ans ctl s with ⟨_,he⟩ | ⟨_,_,_,he⟩ | ⟨_,_,_,he⟩ | ⟨_,_,he⟩ <;> rw [he]
  · exact .inl hs
  · exact .inl hs
  · refine updateEvents_clean_or_broken hs.mirrors.registered hs.kept (fun ho => ?_)
    simpa using (hs.watched ho).2
  · exact .inl (hs.frame ⟨rfl,rfl,rfl,rfl⟩ id)

theorem handleNewContext_clean_or_broken (hs : s.Clean) (ctl : CtlAnswer) (cb : Callback) :
    (h.handleNewContext ctl cb s).2.Clean ∨ (h.handleNewContext ctl cb s).2.Broken := by
  have hopen : (updateEvents ctl s.opened).2.Clean ∨ (updateEvents ctl s.opened).2.Broken :=
    updateEvents_clean_or_broken hs.mirrors.registered hs.kept
      (fun _ => readEnabled_enableRead s.events)
  rcases handleNewContext_cases h ctl cb s with ⟨e,t,hu,he⟩ | ⟨t,hu,he⟩ <;> rw [hu] at hopen <;> rw [he]
  · exact hopen.imp (fun hc => hc.frame ⟨rfl,rfl,rfl,rfl⟩ id) (fun hb => hb.frame ⟨rfl,rfl,rfl,rfl⟩)
  · have hc : t.Clean := hopen.resolve_right (fun hb => hb.unmirrored (updateEvents_ok_mirrors hu))
    have hrecord : Follows (Keeps Conn.CleanOrStuck) (record .connect) :=
      .of_keeps (fun _ hs => hs.frame ⟨rfl,rfl,rfl,rfl⟩ id)
    have hcatch : ∀ e, Follows (Keeps Conn.CleanOrStuck) (Handler.catchException e) :=
      fun _ => .of_keeps (fun _ hs => hs.frame ⟨rfl,rfl,rfl,rfl⟩ id)
    have hrest := (Follows.onlyIf (c := h.connectFlag)
      (fun _ => hrecord.bind (fun _ => callback_keeps cb))).attempt hcatch
    exact (hrest.keeps_inv (.inl hc)).clean_or_broken

theorem handleClose_clean_or_broken (hs : s.Clean) (env : CloseEnv) :
    (h.handleClose env s).2.Clean ∨ (h.handleClose env s).2.Broken := by
  obtain ⟨hl,ho⟩ := shutdown_epoll s
  have hd : (Context.shutdown s).2.Clean := hs.frame hl ho.mp
  have hcases := handleClose_cases h env s
  generalize (Context.shutdown s).2 = d at hl ho hd hcases
  let off : Conn := { d with events := disableWrite (disableRead d.events) }
  rcases hcases with ⟨_,he⟩ | ⟨hopen,e,t,hu,he⟩ | ⟨hopen,t,hu,he⟩ <;> rw [he]
  · exact .inl hs
  · have hoff : updateEvents env.ctl off = (.error e,t) := hu
    -- the call was to drop the read bit, so the mask it found was another
    have hnot : ¬(off.ctlCall false).Kept := by
      rintro (hk | ⟨_,hfound⟩)
      · cases hk
      · have hmask := hd.mirrors.mask _ hfound
        have hread : readEnabled (off.ctlCall false).mask = false := by simp [off,Conn.ctlCall]
        rw [hmask,(hd.watched (ho.mpr hopen)).2] at hread
        cases hread
    have hm := updateEvents_error_mirrors (s := off) hd.mirrors.registered hoff
    exact .inr ⟨fun h => hnot (hm.mp h),_,by simp [updateEvents_error_ctls hoff],hnot⟩
  · have hoff : updateEvents env.ctl off = (.ok (),t) := hu
    have hc : (t.closed h).Clean := by
      refine ⟨(updateEvents_ok_mirrors hoff).frame ⟨rfl,rfl,rfl,rfl⟩,?_,?_⟩
      · change ∀ c ∈ t.ctls, c.Kept
        rw [updateEvents_ok_ctls hoff]
        exact kept_append hd.kept (.inl rfl)
      · simp [Conn.Open,Conn.closed]
    have hrest := Follows.onlyIf (c := h.closeFlag) (fun _ => callback_keeps env.callback)
    exact (hrest.keeps_inv (.inl hc)).clean_or_broken

end Operations

def Op.Updates : Op → Prop
  | .handleNewContext _ _ | .call _ | .handleWrite _ _ | .handleClose _ => True
  | _ => False

section Runs
variable {h : Handler} {s : Conn} {op : Op}

theorem exec_clean_or_broken (hs : s.Clean) (hop : op.Updates) :
    (op.exec h s).2.Clean ∨ (op.exec h s).2.Broken := by
  cases op with
  | handleNewContext ctl cb => exact handleNewContext_clean_or_broken hs ctl cb
  | call c =>
    have hcall := userCall_follows
      (fun buf ans ctl => Follows.of_keeps (fun _ hs => Conn.CleanOrStuck.send hs buf ans ctl))
      (Follows.of_keeps (fun s hs => Conn.CleanOrStuck.frame hs (shutdown_epoll s).1
        (shutdown_epoll s).2.mp)) c
    exact (hcall.keeps_inv (.inl hs)).clean_or_broken
  | handleWrite ans ctl => exact handleWrite_clean_or_broken hs ans ctl
  | handleClose env => exact handleClose_clean_or_broken hs env
  | event => exact hop.elim
  | loopPass => exact hop.elim
  | interest => exact hop.elim

theorem execs_mirror_iff (ops : List Op) (hops : ∀ op ∈ ops, op.Updates) (hs : s.Clean) :
    (∀ pre, pre <+: ops → (s.execs h pre).Mirrors ∧ (s.execs h pre).Legal) ↔
      ∀ c ∈ (s.execs h ops).ctls, c.Kept := by
  have hgood : ∀ t : Conn, t.Mirrors → t.Mirrors ∧ t.Legal :=
    fun t ht => ⟨ht,legal_of_registered ht.registered⟩
  induction ops generalizing s with
  | nil =>
    refine ⟨fun _ => hs.kept,fun _ pre hpre => ?_⟩
    rw [List.prefix_nil.mp hpre]
    exact hgood s hs.mirrors
  | cons op ops ih =>
    obtain ⟨hop,hops⟩ := List.forall_mem_cons.mp hops
    rcases exec_clean_or_broken (h := h) hs hop with hc | hb
    · refine Iff.trans ⟨fun hall pre hpre => ?_,fun hall pre hpre => ?_⟩ (ih hops hc)
      · exact hall (op :: pre) (List.prefix_cons_inj op |>.mpr hpre)
      · cases pre with
        | nil => exact hgood s hs.mirrors
        | cons op' pre =>
          obtain ⟨rfl,htail⟩ := List.cons_prefix_cons.mp hpre
          exact hall pre htail
    · refine ⟨fun hall => ?_,fun hall => ?_⟩
      · have hm := (hall [op] (List.cons_prefix_cons.mpr ⟨rfl,List.nil_prefix⟩)).1
        exact absurd hm hb.unmirrored
      · obtain ⟨c,hc,hn⟩ := hb.refused
        exact absurd (hall c ((execs_ctls_grow ops _).subset hc)) hn

end Runs

/-- The mirror holds throughout a run just when every `::epoll_ctl` leaves the
kernel with what it asked for. -/
theorem epoll_mirror_iff_kept (h : Handler) (ops : List Op) (hops : ∀ op ∈ ops, op.Updates) :
    (∀ pre, pre <+: ops → (Conn.init.execs h pre).Mirrors ∧ (Conn.init.execs h pre).Legal) ↔
      ∀ c ∈ (Conn.init.execs h ops).ctls, c.Kept := by
  refine execs_mirror_iff ops hops ⟨⟨?_,?_⟩,?_,?_⟩
  · simp [Conn.init,Context.init]
  · simp [Conn.init]
  · simp [Conn.init]
  · simp [Conn.Open,Conn.init,Context.init]

/-- An `EPOLL_CTL_ADD`, a refused `EPOLL_CTL_MOD` of the same mask, one for a send and
one when it is out, and the `EPOLL_CTL_DEL` of the close. -/
def addModDel : List Op :=
  [.handleNewContext none .silent,.handleNewContext (some 12) .silent,
    .call (.send [7,8] (.accepts 1) none),.handleWrite (.accepts 1) none,.handleClose ⟨none,.silent⟩]

theorem epoll_mirror_iff_kept_addModDel :
    (Conn.init.execs .all addModDel).ctls.map (fun c => (c.op,c.ok)) =
      [(.add,true),(.mod,false),(.mod,true),(.mod,true),(.del,true)] ∧
    ∀ pre, pre <+: addModDel → (Conn.init.execs .all pre).Mirrors ∧ (Conn.init.execs .all pre).Legal := by
  have hiff := epoll_mirror_iff_kept .all addModDel (by simp [addModDel,Op.Updates])
  have hctls : (Conn.init.execs .all addModDel).ctls = [⟨.add,5,none,true⟩,⟨.mod,5,some 5,false⟩,
      ⟨.mod,7,some 5,true⟩,⟨.mod,5,some 7,true⟩,⟨.del,0,some 5,true⟩] := by decide +kernel
  refine ⟨by rw [hctls]; rfl,hiff.mpr ?_⟩
  rw [hctls]
  simp [CtlCall.Kept]

/-- `_eState` says `ADDED` after an `EPOLL_CTL_ADD` that ran out of memory. -/
theorem epoll_mirror_lost : ¬∀ (h : Handler) (ops : List Op), (∀ op ∈ ops, op.Updates) →
    ∀ pre, pre <+: ops → (Conn.init.execs h pre).Mirrors ∧ (Conn.init.execs h pre).Legal := by
  intro hall
  let ops : List Op := [.handleNewContext (some 12) .silent]
  have hm := (hall .all ops (by simp [ops,Op.Updates]) ops List.prefix_rfl).1
  have hreg : (Conn.init.execs .all ops).interest.isSome = false ∧
      (Conn.init.execs .all ops).eState = .added := by decide +kernel
  exact absurd (hm.registered.mpr hreg.2) (by simp [hreg.1])

end FluentNet
