import FluentNet.Future.Future
import FluentNet.Library.Emitter
set_option autoImplicit false

/-! A chain of futures invokes its functors as a sequential program would. -/

namespace FluentNet
namespace Future
open Runs Emitter

/-- Where sequential execution is: before a stage, whose predicate has been called
`calls` times, or stopped for good. -/
inductive Cursor (c : Chain) where
  | running (k : Nat) (value : c.T k) (calls : Nat)
  | stopped

/-- The reference: the stages in order on the value. A poll is called until it
returns true and then forwards the value; one with a count gives up after as many
calls. `cancelIf` forwards the value or stops. -/
def Chain.next (c : Chain) : Cursor c → List (Call c) × Cursor c
  | .stopped => ([],.stopped)
  | .running k value calls =>
      if k < c.length then
        match c.stage k with
        | .andThen f => ([⟨k,value⟩],.running (k+1) (f value) 0)
        | .poll same f =>
            ([⟨k,value⟩],if f value calls then .running (k+1) (cast same value) 0
              else .running k value (calls+1))
        | .pollCount same count f =>
            if calls < count then
              ([⟨k,value⟩],if f value calls then .running (k+1) (cast same value) 0
                else .running k value (calls+1))
            else ([],.running (k+1) (cast same value) 0)
        | .cancelIf same f =>
            ([⟨k,value⟩],if f value then .stopped else .running (k+1) (cast same value) 0)
      else ([],.running k value calls)

def Chain.start (c : Chain) (value : c.T 0) : Cursor c := .running 0 value 0

def Cursor.resumed {c : Chain} (k : Nat) (value : c.T k) (calls : Nat) :
    Resumed (c.T (k+1)) → Cursor c
  | .yielded => .running k value (calls+1)
  | .canceled => .stopped
  | .set next => .running (k+1) next 0

/-- One `resume()` is one step of the reference. -/
theorem Chain.next_resume (c : Chain) {k : Nat} (hk : k < c.length) (value : c.T k) (calls : Nat) :
    c.next (.running k value calls) =
      (if ((c.stage k).resume value calls).1 then [⟨k,value⟩] else [],
        Cursor.resumed k value calls ((c.stage k).resume value calls).2) := by
  simp only [Chain.next,if_pos hk]
  cases c.stage k with
  | andThen f => rfl
  | poll same f => cases hf : f value calls <;> simp [Stage.resume,Cursor.resumed,hf]
  | pollCount same count f =>
    by_cases hcount : calls < count
    · have hne : count-calls ≠ 0 := by omega
      cases hf : f value calls <;> simp [Stage.resume,Cursor.resumed,hcount,hne,hf]
    · have hz : count-calls = 0 := by omega
      simp [Stage.resume,Cursor.resumed,hcount,hz]
  | cancelIf same f => cases hf : f value <;> simp [Stage.resume,Cursor.resumed,hf]

namespace Machine
variable {c : Chain} {s : Machine c}

def Fresh (s : Machine c) (k : Nat) : Prop :=
  ∀ j, k ≤ j → s.blocks j = ⟨.new,none,if j < s.attached then some (c.stage j) else none⟩

/-- The blocks and the queue are where sequential execution is. -/
inductive Stands (value : c.T 0) (s : Machine c) : Cursor c → Prop where
  | unset (hf : s.Fresh 0) (hq : s.queue = []) : Stands value s (c.start value)
  | waiting {k : Nat} {w : c.T k} (hb : s.blocks k = ⟨.ready,some w,none⟩) (hk : s.attached = k)
      (hf : s.Fresh (k+1)) (hq : s.queue = []) : Stands value s (.running k w 0)
  | posted {k calls : Nat} {w : c.T k} (hb : s.blocks k = ⟨.posted,some w,some (c.stage k)⟩)
      (hk : k < s.attached) (hf : s.Fresh (k+1)) (hq : s.queue = [⟨k,calls⟩]) :
      Stands value s (.running k w calls)
  | stopped {k : Nat} (hk : k ≤ s.attached)
      (hb : ∀ j, k ≤ j → (s.blocks j).state = .new ∨ (s.blocks j).state = .cancel)
      (hq : s.queue = []) : Stands value s .stopped

section Blocks
variable (s : Machine c) {k j : Nat}

@[simp] theorem setBlock_attached (b : ControlBlock (c.T k) (c.T (k+1))) :
    (s.setBlock k b).attached = s.attached := rfl

@[simp] theorem setBlock_queue (b : ControlBlock (c.T k) (c.T (k+1))) :
    (s.setBlock k b).queue = s.queue := rfl

@[simp] theorem setBlock_self (b : ControlBlock (c.T k) (c.T (k+1))) :
    (s.setBlock k b).blocks k = b := by
  simp [setBlock]

theorem setBlock_other (h : j ≠ k) (b : ControlBlock (c.T k) (c.T (k+1))) :
    (s.setBlock k b).blocks j = s.blocks j := by
  simp [setBlock,h]

@[simp] theorem postRequest_queue (k : Nat) : (s.postRequest k).queue = s.queue ++ [⟨k,0⟩] := rfl

@[simp] theorem postRequest_self (k : Nat) :
    (s.postRequest k).blocks k = { s.blocks k with state := .posted } :=
  setBlock_self s _

theorem postRequest_other (h : j ≠ k) : (s.postRequest k).blocks j = s.blocks j :=
  setBlock_other s h _

end Blocks

section Steps

theorem setValue_fresh {k : Nat} (value : c.T 0) (w : c.T k) (hf : s.Fresh k) (hk : k ≤ s.attached)
    (hq : s.queue = []) : ∃ t, s.setValue k w = some t ∧ t.trace = s.trace ∧
      t.attached = s.attached ∧ (∀ j, j ≠ k → t.blocks j = s.blocks j) ∧
      t.Stands value (.running k w 0) := by
  have hb := hf k (Nat.le_refl k)
  have hlater : ∀ t : Machine c, t.attached = s.attached →
      (∀ j, j ≠ k → t.blocks j = s.blocks j) → t.Fresh (k+1) := by
    intro t ht hsame j hj
    rw [hsame j (by omega),ht]
    exact hf j (by omega)
  by_cases hlt : k < s.attached
  · let t := (s.setBlock k ⟨.ready,some w,some (c.stage k)⟩).postRequest k
    have ht : s.setValue k w = some t := by simp [setValue,hb,hlt,t]
    have hother : ∀ j, j ≠ k → t.blocks j = s.blocks j :=
      fun j hj => (postRequest_other _ hj).trans (setBlock_other s hj _)
    exact ⟨t,ht,rfl,rfl,hother,.posted (by simp [t]) hlt (hlater t rfl hother) (by simp [t,hq])⟩
  · let t := s.setBlock k ⟨.ready,some w,none⟩
    have ht : s.setValue k w = some t := by simp [setValue,hb,hlt,t]
    have hother : ∀ j, j ≠ k → t.blocks j = s.blocks j := fun j hj => setBlock_other s hj _
    have hend : s.attached = k := Nat.le_antisymm (Nat.le_of_not_lt hlt) hk
    exact ⟨t,ht,rfl,rfl,hother,.waiting (by simp [t]) hend (hlater t rfl hother) hq⟩

theorem Stands.past {value : c.T 0} {k : Nat} {w : c.T (k+1)} {b : ControlBlock (c.T k) (c.T (k+1))}
    (hs : s.Stands value (.running (k+1) w 0)) :
    (s.setBlock k b).Stands value (.running (k+1) w 0) := by
  have hfresh : ∀ j, k < j → s.Fresh j → (s.setBlock k b).Fresh j := by
    intro j hj hf i hi
    rw [setBlock_other s (by omega),setBlock_attached]
    exact hf i hi
  cases hs with
  | waiting hb hk hf hq =>
    exact .waiting ((setBlock_other s (by omega) _).trans hb) hk (hfresh _ (by omega) hf) hq
  | posted hb hk hf hq =>
    exact .posted ((setBlock_other s (by omega) _).trans hb) hk (hfresh _ (by omega) hf) hq

theorem attached_block (b : ControlBlock (c.T (s.attached+1)) (c.T (s.attached+1+1))) :
    (s.setBlock (s.attached+1) b).blocks s.attached = s.blocks s.attached :=
  setBlock_other s (by omega) _

theorem attach_new (h : (s.blocks s.attached).state = .new) :
    s.attach.queue = s.queue ∧ s.attach.trace = s.trace ∧
    s.attach.blocks s.attached =
      { s.blocks s.attached with continuation := some (c.stage s.attached) } ∧
    s.attach.blocks (s.attached+1) = .init ∧
    ∀ j, j ≠ s.attached → j ≠ s.attached+1 → s.attach.blocks j = s.blocks j := by
  have he : s.attach = { (s.setBlock (s.attached+1) .init).setBlock s.attached
      { s.blocks s.attached with continuation := some (c.stage s.attached) } with
      attached := s.attached+1 } := by
    simp [attach,futureRoutine,attached_block,h]
  rw [he]
  refine ⟨rfl,rfl,setBlock_self _ _,?_,fun j hj hj' => ?_⟩
  · exact (setBlock_other _ (by omega) _).trans (setBlock_self s _)
  · exact (setBlock_other _ hj _).trans (setBlock_other s hj' _)

theorem attach_ready (h : (s.blocks s.attached).state = .ready) :
    s.attach.queue = s.queue ++ [⟨s.attached,0⟩] ∧ s.attach.trace = s.trace ∧
    s.attach.blocks s.attached =
      { s.blocks s.attached with state := .posted, continuation := some (c.stage s.attached) } ∧
    s.attach.blocks (s.attached+1) = .init ∧
    ∀ j, j ≠ s.attached → j ≠ s.attached+1 → s.attach.blocks j = s.blocks j := by
  have he : s.attach = { ((s.setBlock (s.attached+1) .init).setBlock s.attached
      { s.blocks s.attached with continuation := some (c.stage s.attached) }).postRequest
        s.attached with attached := s.attached+1 } := by
    simp [attach,futureRoutine,attached_block,h]
  rw [he]
  refine ⟨rfl,rfl,by simp,?_,fun j hj hj' => ?_⟩
  · exact (postRequest_other _ (by omega)).trans
      ((setBlock_other _ (by omega) _).trans (setBlock_self s _))
  · exact (postRequest_other _ hj).trans ((setBlock_other _ hj _).trans (setBlock_other s hj' _))

theorem attach_cancel (h : (s.blocks s.attached).state = .cancel) :
    s.attach.queue = s.queue ∧ s.attach.trace = s.trace ∧
    (s.attach.blocks (s.attached+1)).state = .cancel ∧
    ∀ j, j ≠ s.attached+1 → s.attach.blocks j = s.blocks j := by
  have he : s.attach = { (s.setBlock (s.attached+1) .init).cancel (s.attached+1) with
      attached := s.attached+1 } := by
    simp [attach,futureRoutine,attached_block,h]
  rw [he]
  refine ⟨rfl,rfl,by simp [cancel,setState],fun j hj => ?_⟩
  exact (setBlock_other _ hj _).trans (setBlock_other s hj _)

theorem attach_fresh {k : Nat} (hf : s.Fresh k) (hk : k ≤ s.attached) :
    s.attach.Fresh k ∧ s.attach.queue = s.queue ∧ s.attach.trace = s.trace ∧
    ∀ j, j < k → s.attach.blocks j = s.blocks j := by
  have hb := hf s.attached hk
  rw [if_neg (Nat.lt_irrefl _)] at hb
  obtain ⟨hq,ht,hself,hnext,hother⟩ := attach_new (s := s) (by rw [hb])
  refine ⟨fun j hj => ?_,hq,ht,fun j hj => hother j (by omega) (by omega)⟩
  have hcount : s.attach.attached = s.attached+1 := rfl
  rw [hcount]
  by_cases hj₀ : j = s.attached
  · subst hj₀
    rw [hself,hb,if_pos (by omega)]
  · by_cases hj₁ : j = s.attached+1
    · subst hj₁
      rw [hnext,if_neg (by omega)]
      rfl
    · rw [hother j hj₀ hj₁,hf j hj]
      by_cases hlt : j < s.attached
      · rw [if_pos hlt,if_pos (by omega)]
      · rw [if_neg hlt,if_neg (by omega)]

theorem attach_stands {value : c.T 0} {cursor : Cursor c} (hs : s.Stands value cursor) :
    s.attach.Stands value cursor ∧ s.attach.trace = s.trace := by
  cases hs with
  | unset hf hq =>
    obtain ⟨hf',hq',ht,_⟩ := attach_fresh hf (Nat.zero_le _)
    exact ⟨.unset hf' (hq'.trans hq),ht⟩
  | waiting hb hk hf hq =>
    rename_i k w
    subst hk
    obtain ⟨hq',ht,hself,hnext,hother⟩ := attach_ready (s := s) (by rw [hb])
    refine ⟨.posted ?_ (Nat.lt_succ_self _) (fun j hj => ?_) (by rw [hq',hq]; rfl),ht⟩
    · rw [hself,hb]
    · have hcount : s.attach.attached = s.attached+1 := rfl
      rw [hcount,if_neg (by omega)]
      by_cases hj₁ : j = s.attached+1
      · subst hj₁
        exact hnext
      · rw [hother j (by omega) hj₁,hf j hj,if_neg (by omega)]
  | posted hb hk hf hq =>
    obtain ⟨hf',hq',ht,hpast⟩ := attach_fresh hf hk
    exact ⟨.posted ((hpast _ (Nat.lt_succ_self _)).trans hb) (Nat.lt_succ_of_lt hk) hf' (hq'.trans hq),ht⟩
  | stopped hk hb hq =>
    rename_i k
    rcases hb s.attached hk with hnew | hcancel
    · obtain ⟨hq',ht,hself,hnext,hother⟩ := attach_new hnew
      refine ⟨.stopped (Nat.le_succ_of_le hk) (fun j hj => ?_) (hq'.trans hq),ht⟩
      by_cases hj₀ : j = s.attached
      · subst hj₀
        exact .inl (by rw [hself]; exact hnew)
      · by_cases hj₁ : j = s.attached+1
        · subst hj₁
          exact .inl (by rw [hnext]; rfl)
        · rw [hother j hj₀ hj₁]
          exact hb j hj
    · obtain ⟨hq',ht,hnext,hother⟩ := attach_cancel hcancel
      refine ⟨.stopped (Nat.le_succ_of_le hk) (fun j hj => ?_) (hq'.trans hq),ht⟩
      by_cases hj₁ : j = s.attached+1
      · subst hj₁
        exact .inr hnext
      · rw [hother j hj₁]
        exact hb j hj

theorem attach_before {j : Nat} (hj : j < s.attached) : s.attach.blocks j = s.blocks j := by
  have hfirst := setBlock_other s (show j ≠ s.attached+1 by omega) .init
  have hsecond : ∀ b, ((s.setBlock (s.attached+1) .init).setBlock s.attached b).blocks j = s.blocks j :=
    fun b => (setBlock_other _ (by omega) b).trans hfirst
  simp only [attach,futureRoutine]
  split
  · exact hsecond _
  · exact (postRequest_other _ (by omega)).trans (hsecond _)
  · exact (setBlock_other _ (by omega) _).trans hfirst
  · exact hfirst

def Left (s : Machine c) (cursor : Cursor c) : Prop :=
  (s.blocks 0).state = .done ∨ ∃ w calls, cursor = .running 0 w calls

/-- One turn of the looper on the posted request is one step of the reference. -/
theorem loopOnce_stands {value : c.T 0} {k calls : Nat} {w : c.T k}
    (hb : s.blocks k = ⟨.posted,some w,some (c.stage k)⟩) (hk : k < s.attached)
    (hlen : s.attached ≤ c.length) (hf : s.Fresh (k+1)) (hq : s.queue = [⟨k,calls⟩])
    (hleft : s.Left (.running k w calls)) :
    ∃ t, s.loopOnceUnchecked = some t ∧ t.attached = s.attached ∧
      t.trace = s.trace ++ (c.next (.running k w calls)).1 ∧
      t.Stands value (c.next (.running k w calls)).2 ∧ t.Left (c.next (.running k w calls)).2 := by
  rw [c.next_resume (by omega)]
  -- the machine once the functor has been called, or not
  let called : List (Call c) := if ((c.stage k).resume w calls).1 then [⟨k,w⟩] else []
  let u : Machine c := { s with queue := [], trace := s.trace ++ called }
  have hu : s.loopOnceUnchecked = match ((c.stage k).resume w calls).2 with
      | .yielded => some (u.post ⟨k,calls+1⟩)
      | .canceled => some ((u.cancel (k+1)).setState k .done)
      | .set next => (u.setValue (k+1) next).bind (fun t => some (t.setState k .done)) := by
    simp only [loopOnceUnchecked,hq,resume,hb,Option.bind_eq_bind,Option.bind_some,u,called]
    rcases (c.stage k).resume w calls with ⟨invoked,resumed⟩
    cases invoked <;> cases resumed <;> simp
  have hfu : u.Fresh (k+1) := hf
  have hdone : ∀ t : Machine c, t.blocks 0 = s.blocks 0 → ((t.setState k .done).blocks 0).state = .done := by
    intro t ht
    rcases hleft with hleft | ⟨_,_,hleft⟩
    · by_cases hk0 : 0 = k
      · subst hk0
        simp [setState]
      · rw [setState,setBlock_other _ hk0,ht,hleft]
    · cases hleft
      simp [setState]
  cases hr : ((c.stage k).resume w calls).2 with
  | yielded =>
    rw [hr] at hu
    refine ⟨_,hu,rfl,rfl,.posted hb hk hf rfl,hleft.imp_right ?_⟩
    rintro ⟨_,_,hleft⟩
    cases hleft
    exact ⟨_,_,rfl⟩
  | canceled =>
    rw [hr] at hu
    refine ⟨_,hu,rfl,rfl,.stopped (k := k+1) hk (fun j hj => ?_) rfl,
      .inl (hdone _ (setBlock_other _ (by omega) _))⟩
    simp only [setState]
    rw [setBlock_other _ (by omega)]
    by_cases hj₁ : j = k+1
    · subst hj₁
      exact .inr (by simp [cancel,setState])
    · simp only [cancel,setState]
      rw [setBlock_other _ hj₁,hfu j hj]
      exact .inl rfl
  | set next =>
    obtain ⟨t,ht,htrace,hattached,hother,hstands⟩ := setValue_fresh value next hfu hk rfl
    rw [hr] at hu
    simp only [ht,Option.bind_some] at hu
    exact ⟨_,hu,hattached,htrace,hstands.past,.inl (hdone t (hother 0 (by omega)))⟩

end Steps

section Loop

theorem times_add (action : Machine c → Option (Machine c)) (m n : Nat) (s : Machine c) :
    times action (m+n) s = (times action m s).bind (times action n) := by
  induction m generalizing s with
  | zero => simp [times]
  | succ m ih =>
    simp only [Nat.succ_add,times,Option.bind_eq_bind,Option.bind_assoc]
    exact Option.bind_congr (fun t _ => ih t)

theorem times_mul (action : Machine c → Option (Machine c)) (m n : Nat) (s : Machine c) :
    times (times action m) n s = times action (m*n) s := by
  induction n generalizing s with
  | zero => rfl
  | succ n ih =>
    rw [Nat.mul_succ,Nat.add_comm (m*n) m,times_add action m (m*n)]
    exact Option.bind_congr (fun t _ => ih t)

/-- The unrolled loop takes as many turns as there are requests at its start. -/
theorem loop_times (s : Machine c) : s.loop = times loopOnceUnchecked s.queue.length s := by
  have hwidth : s.queue.length =
      4*(s.queue.length/4)+(2*(s.queue.length/2%2)+s.queue.length%2) := by omega
  have htwo : ∀ t : Machine c, (if s.queue.length/2%2 = 1 then times loopOnceUnchecked 2 t
      else some t) = times loopOnceUnchecked (2*(s.queue.length/2%2)) t := by
    intro t
    rcases Nat.mod_two_eq_zero_or_one (s.queue.length/2) with h | h <;> simp [h,times]
  have hone : ∀ t : Machine c, (if s.queue.length%2 = 1 then t.loopOnceUnchecked else some t) =
      times loopOnceUnchecked (s.queue.length%2) t := by
    intro t
    rcases Nat.mod_two_eq_zero_or_one s.queue.length with h | h <;> simp [h,times]
  conv => rhs; rw [hwidth,times_add]
  simp only [loop,unroll4x,htwo,hone,times_mul,Option.bind_eq_bind,Option.bind_assoc]
  exact Option.bind_congr (fun t _ => (times_add _ _ _ t).symm)

end Loop

structure Inv (value : c.T 0) (s : Machine c) : Prop where
  attached : s.attached ≤ c.length
  reference : ∃ cursor, Reaches c.next (c.start value) s.trace cursor ∧ s.Stands value cursor ∧
    s.Left cursor

section Runs
variable {value : c.T 0}

theorem init_inv (c : Chain) (value : c.T 0) : (init c).Inv value :=
  ⟨Nat.zero_le _,c.start value,.refl _,.unset (fun _ _ => rfl) rfl,.inr ⟨value,0,rfl⟩⟩

theorem Inv.loop (hs : s.Inv value) : ∃ t, s.loop = some t ∧ t.Inv value := by
  obtain ⟨hlen,cursor,hreach,hstands,hleft⟩ := hs
  rw [loop_times]
  have hidle : s.queue = [] → ∃ t, times loopOnceUnchecked s.queue.length s = some t ∧ t.Inv value :=
    fun hq => ⟨s,by simp [hq,times],hlen,cursor,hreach,hstands,hleft⟩
  cases hstands with
  | unset hf hq => exact hidle hq
  | waiting hb hk hf hq => exact hidle hq
  | stopped hk hb hq => exact hidle hq
  | posted hb hk hf hq =>
    obtain ⟨t,ht,hattached,htrace,hstands⟩ := loopOnce_stands hb hk hlen hf hq hleft
    refine ⟨t,by simp [hq,times,ht],hattached ▸ hlen,_,?_,hstands⟩
    rw [htrace]
    exact hreach.step

theorem Inv.attach (hs : s.Inv value) (hlt : s.attached < c.length) :
    s.attach.Inv value ∧ s.attach.trace = s.trace := by
  obtain ⟨_,cursor,hreach,hstands,hleft⟩ := hs
  obtain ⟨hstands',htrace⟩ := attach_stands hstands
  refine ⟨⟨hlt,cursor,htrace ▸ hreach,hstands',hleft.imp_left (fun hdone => ?_)⟩,htrace⟩
  -- a block that is done has a stage attached
  have hpos : 0 < s.attached := by
    cases hstands with
    | unset hf hq =>
      rw [hf 0 (Nat.le_refl 0)] at hdone
      cases hdone
    | waiting hb hk hf hq =>
      rename_i k w
      cases k with
      | zero =>
        rw [hb] at hdone
        cases hdone
      | succ k => omega
    | posted hb hk hf hq => omega
    | stopped hk hb hq =>
      rename_i k
      cases k with
      | zero => rcases hb 0 (Nat.le_refl 0) with h | h <;> rw [h] at hdone <;> cases hdone
      | succ k => omega
  rw [attach_before hpos]
  exact hdone

theorem Inv.setValue {t : Machine c} (hs : s.Inv value) (h : s.setValue 0 value = some t) :
    t.Inv value ∧ t.trace = s.trace := by
  obtain ⟨hlen,cursor,hreach,hstands,hleft⟩ := hs
  have hstate : (s.blocks 0).state = .new ∨ (s.blocks 0).state = .cancel := by
    simp only [Machine.setValue] at h
    split at h
    · rename_i hnew
      exact .inl hnew
    · rename_i hcancel
      exact .inr hcancel
    · cases h
  rcases hleft with hdone | ⟨w,calls,rfl⟩
  · simp [hdone] at hstate
  · cases hstands with
    | unset hf hq =>
      obtain ⟨u,hu,htrace,hattached,_,hstands⟩ :=
        setValue_fresh value value hf (Nat.zero_le _) hq
      obtain rfl := Option.some.inj (hu.symm.trans h)
      exact ⟨⟨hattached ▸ hlen,_,htrace ▸ hreach,hstands,.inr ⟨value,0,rfl⟩⟩,htrace⟩
    | waiting hb hk hf hq => simp [hb] at hstate
    | posted hb hk hf hq => simp [hb] at hstate

theorem Inv.step {t : Machine c} {l : Label} (hs : s.Inv value) (h : s.step value l = some t) :
    t.Inv value ∧ (l ≠ .loop → t.trace = s.trace) := by
  cases l with
  | attach =>
    simp only [Machine.step] at h
    split at h
    · rename_i hlt
      cases h
      obtain ⟨hinv,htrace⟩ := hs.attach hlt
      exact ⟨hinv,fun _ => htrace⟩
    · cases h
  | setValue =>
    obtain ⟨hinv,htrace⟩ := hs.setValue h
    exact ⟨hinv,fun _ => htrace⟩
  | loop =>
    obtain ⟨u,hu,hinv⟩ := hs.loop
    obtain rfl := Option.some.inj (hu.symm.trans h)
    exact ⟨hinv,fun hl => absurd rfl hl⟩

theorem path_inv (hs : Path (Machine.step value) Any (init c) s) : s.Inv value :=
  hs.keeps (fun _ _ _ _ he hi => (hi.step he).1) (init_inv c value)

structure Finished (s : Machine c) : Prop where
  set : (s.blocks 0).state ≠ .new
  attached : s.attached = c.length
  idle : s.queue = []

theorem Inv.finished (hs : s.Inv value) (hfin : s.Finished) :
    Completes c.next (c.start value) s.trace := by
  obtain ⟨_,cursor,hreach,hstands,_⟩ := hs
  refine hreach.completes ?_
  cases hstands with
  | unset hf hq => exact absurd (by rw [hf 0 (Nat.le_refl 0)]) hfin.set
  | waiting hb hk hf hq =>
    have hend := hfin.attached
    simp [Halted,Chain.next,← hk,hend]
  | posted hb hk hf hq => simp [hfin.idle] at hq
  | stopped hk hb hq => rfl

/-- The order of attaching, setting and passes makes no difference in the end. -/
theorem finished_traces (c : Chain) (value : c.T 0) (s t : Machine c)
    (hs : Path (Machine.step value) Any (init c) s) (ht : Path (Machine.step value) Any (init c) t)
    (hsf : s.Finished) (htf : t.Finished) : s.trace = t.trace := by
  have hcs := (path_inv hs).finished hsf
  have hct := (path_inv ht).finished htf
  have htrails : ∀ {trace}, Completes c.next (c.start value) trace → Trails c.next (c.start value) trace := by
    rintro _ ⟨m,rfl,_⟩
    exact ⟨m,List.prefix_refl _⟩
  have hst := hct.longest (htrails hcs)
  exact hst.eq_of_length_le (hcs.longest (htrails hct)).length_le

end Runs

end Machine

end Future
end FluentNet
