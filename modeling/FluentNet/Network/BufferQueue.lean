import FluentNet.Network.Buffer
import FluentNet.Library.Refinement
set_option autoImplicit false

/-! A buffer is a queue of bytes, however it moves them about. -/

namespace FluentNet
open Throwing Runs

inductive BufferOp where
  | append (data : List UInt8)
  | hasRead (n : Nat)
  | readFrom (ans : ReadAnswer)
  | writeTo (ans : WriteAnswer)
  | gc
  | gcHint (hint : Int)
  | clear
  deriving DecidableEq, Repr

namespace BufferOp

def exec : BufferOp → Act Exn (Buffer × List UInt8) Int
  | .append data => onBuffer (Buffer.append data)
  | .hasRead n => onBuffer (Act.modify (Buffer.hasRead n))
  | .readFrom ans => Act.zoom Prod.fst (fun s b => (b,s.2)) (Buffer.readFrom ans)
  | .writeTo ans => Buffer.writeTo ans
  | .gc => onBuffer (Act.modify Buffer.gc)
  | .gcHint hint => onBuffer (Buffer.gcHint hint)
  | .clear => onBuffer (Act.modify Buffer.clear)
where
  onBuffer (m : Act Exn Buffer Unit) : Act Exn (Buffer × List UInt8) Int :=
    Act.zoom Prod.fst (fun s b => (b,s.2)) (m >>= fun _ => pure 0)

def step (s : Buffer × List UInt8) (op : BufferOp) : Option (Buffer × List UInt8) :=
  some (op.exec s).2

/-- The bytes of the buffer and those that a call asks room for are 2^30 at most.
A `::readv` returns no more than it was given room for. -/
def Fits (s : Buffer × List UInt8) : BufferOp → Prop
  | .append data => s.1.unread+data.length ≤ 2^30
  | .hasRead n => n ≤ s.1.unread
  | .readFrom (.data bytes) =>
      s.1.unread+bytes.length ≤ 2^30 ∧ bytes.length ≤ s.1.unwrite+Buffer.LOCAL_SIZE
  | .gcHint hint => s.1.unread+hint ≤ 2^30
  | _ => True

instance (s : Buffer × List UInt8) (op : BufferOp) : Decidable (op.Fits s) := by
  unfold Fits
  split <;> infer_instance

abbrev ByteQueue := List UInt8 × List UInt8

def apply (q : ByteQueue) : BufferOp → ByteQueue
  | .append data => (q.1 ++ data,q.2)
  | .hasRead n => (q.1.drop n,q.2)
  | .readFrom (.data bytes) => (q.1 ++ bytes,q.2)
  | .readFrom (.fails _) => q
  | .writeTo ans => (ans.rest q.1,q.2 ++ ans.taken q.1)
  | .gc => q
  | .gcHint _ => q
  | .clear => ([],q.2)

def returns (q : ByteQueue) : BufferOp → Except Exn Int
  | .readFrom (.data bytes) => .ok bytes.length
  | .readFrom (.fails _) => .ok (-1)
  | .writeTo (.accepts k) => .ok (q.1.take k).length
  | .writeTo (.fails err) =>
      if err = EAGAIN ∨ err = EINTR then .ok 0 else .error (.writeException err)
  | _ => .ok 0

end BufferOp

namespace Buffer
variable {b : Buffer}

theorem Wf.clear (h : b.Wf) : b.clear.Wf := by
  obtain ⟨h1,h2,h3,h4⟩ := h
  exact ⟨Int.le_refl 0,Int.le_refl 0,by simp only [Buffer.clear]; omega,h4⟩

theorem clear_content (b : Buffer) : b.clear.content = [] := by
  simp [content]

/-- Bytes that fit are read in place; the others come by way of `localBuffer`. -/
theorem Wf.store (h : b.Wf) {got : List UInt8} (hn : b.unread+got.length ≤ 2^30) :
    ∃ t, Buffer.store b.unwrite got b = (.ok (),t) ∧ t.Wf ∧ t.content = b.content ++ got := by
  have hroom : 0 ≤ b.unwrite := by
    have hw := h.w_le_capacity
    simp only [unwrite]
    omega
  unfold Buffer.store
  split
  · rename_i h0
    rw [List.eq_nil_of_length_eq_zero h0,List.append_nil]
    exact ⟨b,rfl,h,rfl⟩
  · split
    · rename_i hle
      obtain ⟨t,ht,hw,hc,_⟩ := h.stored hle
      exact ⟨_,by rw [Act.bind_of_ok ht]; rfl,hw,hc⟩
    · rename_i hgt
      have hlen : (got.take b.unwrite.toNat).length = b.unwrite.toNat := by
        rw [List.length_take]
        omega
      have hlimit : ((got.take b.unwrite.toNat).length : Int) = b.unwrite := by omega
      obtain ⟨t,ht,hw,hc,hu⟩ := h.stored (Int.le_of_eq hlimit)
      rw [hlimit] at hw hc hu
      have hrest : (hasWritten b.unwrite t).unread+(got.drop b.unwrite.toNat).length ≤ 2^30 := by
        rw [hu,List.length_drop]
        omega
      obtain ⟨u,hu,hwu,hcu⟩ := hw.append (.inr hrest)
      refine ⟨u,?_,hwu,?_⟩
      · rw [Act.bind_of_ok ht,Act.modify_bind]
        exact hu
      · rw [hcu,hc,List.append_assoc,List.take_append_drop]

theorem Wf.readFrom (h : b.Wf) {bytes : List UInt8} (hn : b.unread+bytes.length ≤ 2^30)
    (hgot : bytes.length ≤ b.unwrite+LOCAL_SIZE) :
    ∃ t, Buffer.readFrom (.data bytes) b = (.ok bytes.length,t) ∧ t.Wf ∧
      t.content = b.content ++ bytes := by
  have hw := h.w_le_capacity
  have hall : bytes.take (b.unwrite.toNat+LOCAL_SIZE) = bytes := by
    refine List.take_of_length_le ?_
    simp only [unwrite] at *
    omega
  obtain ⟨t,ht,hwt,hct⟩ := h.store hn
  refine ⟨t,?_,hwt,hct⟩
  simp only [Buffer.readFrom,Act.get_bind,hall]
  rw [Act.bind_of_ok ht]
  rfl

theorem Wf.hint (h : b.Wf) {hint : Int} (hn : b.unread+hint ≤ 2^30) :
    ∃ t, Buffer.gcHint hint b = (.ok (),t) ∧ t.Wf ∧ t.content = b.content := by
  by_cases hpos : 0 ≤ hint
  · obtain ⟨n,rfl⟩ := Int.eq_ofNat_of_zero_le hpos
    obtain ⟨t,ht,hw,hc,_⟩ := h.gcHint (.inr hn)
    exact ⟨t,ht,hw,hc⟩
  · have hle : hint ≤ b.unwrite := by
      have hw := h.w_le_capacity
      simp only [unwrite]
      omega
    exact ⟨b,by simp [Buffer.gcHint,hle],h,rfl⟩

end Buffer

namespace BufferOp

def Holds (s : Buffer × List UInt8) (q : ByteQueue) : Prop :=
  s.1.Wf ∧ s.1.content = q.1 ∧ s.2 = q.2

section Steps
variable {s : Buffer × List UInt8} {q : ByteQueue}

theorem onBuffer_holds {m : Act Exn Buffer Unit} {t : Buffer} {queue : List UInt8}
    (hm : m s.1 = (.ok (),t)) (hw : t.Wf) (hc : t.content = queue) (hsent : s.2 = q.2) :
    (exec.onBuffer m s).1 = .ok 0 ∧ Holds (exec.onBuffer m s).2 (queue,q.2) := by
  have hrun : exec.onBuffer m s = (.ok 0,(t,s.2)) := by
    rw [exec.onBuffer,Act.zoom_apply,Act.bind_of_ok hm]
    rfl
  rw [hrun]
  exact ⟨rfl,hw,hc,hsent⟩

theorem exec_holds {op : BufferOp} (hs : Holds s q) (hop : op.Fits s) :
    (op.exec s).1 = op.returns q ∧ Holds (op.exec s).2 (op.apply q) := by
  obtain ⟨hw,hc,hsent⟩ := hs
  cases op with
  | append data =>
    obtain ⟨t,ht,hwt,hct⟩ := hw.append (.inr hop)
    exact onBuffer_holds ht hwt (by rw [hct,hc]) hsent
  | hasRead n =>
    exact onBuffer_holds rfl (hw.hasRead hop) (by rw [hw.hasRead_content hop,hc]) hsent
  | readFrom ans =>
    cases ans with
    | data bytes =>
      obtain ⟨t,ht,hwt,hct⟩ := hw.readFrom hop.1 hop.2
      have hrun : exec (.readFrom (.data bytes)) s = (.ok bytes.length,(t,s.2)) := by
        rw [exec,Act.zoom_apply,ht]
      rw [hrun]
      exact ⟨rfl,hwt,by rw [hct,hc]; rfl,hsent⟩
    | fails err => exact ⟨rfl,hw,hc,hsent⟩
  | writeTo ans =>
    have hpop : Holds (Buffer.hasRead (ans.taken s.1.content).length s.1,s.2 ++ ans.taken s.1.content)
        (apply q (.writeTo ans)) := by
      have hle : ((ans.taken s.1.content).length : Int) ≤ s.1.unread := by
        have h1 := ans.taken_length_le s.1.content
        have h2 := hw.content_length
        omega
      refine ⟨hw.hasRead hle,?_,by simp only [apply,hc,hsent]⟩
      rw [hw.hasRead_content hle,hc]
      rfl
    cases ans with
    | accepts k => exact ⟨by rw [returns,← hc]; rfl,hpop⟩
    | fails err =>
      by_cases hagain : err = EAGAIN ∨ err = EINTR
      · have hrun : exec (.writeTo (.fails err)) s = (.ok 0,(Buffer.hasRead 0 s.1,s.2)) := by
          simp [exec,Buffer.writeTo,hagain]
        rw [hrun,returns,if_pos hagain]
        simpa [WriteAnswer.taken] using hpop
      · have hrun : exec (.writeTo (.fails err)) s = (.error (.writeException err),s) := by
          simp [exec,Buffer.writeTo,hagain]
        rw [hrun,returns,if_neg hagain]
        exact ⟨rfl,hw,hc,by simpa [apply,WriteAnswer.taken] using hsent⟩
  | gc => exact onBuffer_holds rfl hw.gc (by rw [hw.gc_content,hc]) hsent
  | gcHint hint =>
    obtain ⟨t,ht,hwt,hct⟩ := hw.hint hop
    exact onBuffer_holds ht hwt (hct.trans hc) hsent
  | clear => exact onBuffer_holds rfl hw.clear s.1.clear_content hsent

end Steps

theorem step_simulates : Simulates Holds step Fits apply := by
  intro s q op s' hs hop hstep
  cases hstep
  exact (exec_holds hs hop).2

/-- A buffer of any size is a queue of bytes under every sequence of calls: nothing
is lost, moved or made up, and every call returns what the queue says. -/
theorem buffer_refines_queue (size : Nat) (ops : List BufferOp) (s : Buffer × List UInt8)
    (hrun : run step Fits (Buffer.ofSize size,[]) ops = some s) :
    Holds s (ops.foldl apply ([],[])) ∧
    ∀ op : BufferOp, op.Fits s → (op.exec s).1 = op.returns (ops.foldl apply ([],[])) := by
  have hstart : Holds (Buffer.ofSize size,[]) ([],[]) :=
    ⟨Buffer.ofSize_wf size,by simp [Buffer.content,Buffer.unread,Buffer.ofSize],rfl⟩
  have hs := step_simulates.run hstart hrun
  exact ⟨hs,fun op hop => (exec_holds hs hop).1⟩

def spilling : List BufferOp :=
  [.append [1,2,3],.writeTo (.accepts 1),.readFrom (.data [4,5,6]),.writeTo (.fails EAGAIN),
    .writeTo (.accepts 3),.gcHint 9]

theorem buffer_refines_queue_spilled : ∃ s : Buffer × List UInt8,
    s.1.content = [5,6] ∧ s.2 = [1,2,3,4] ∧ Holds s (spilling.foldl apply ([],[])) ∧
    ∀ op : BufferOp, op.Fits s → (op.exec s).1 = op.returns (spilling.foldl apply ([],[])) := by
  have hrun : (run step Fits (Buffer.ofSize 2,[]) spilling).any
      (fun s => s.1.content = [5,6] ∧ s.2 = [1,2,3,4]) := by decide +kernel
  obtain ⟨s,hs,hcond⟩ := (Option.any_eq_true _ _).mp hrun
  obtain ⟨hcontent,hsent⟩ := of_decide_eq_true hcond
  exact ⟨s,hcontent,hsent,buffer_refines_queue 2 spilling s hs⟩

end BufferOp

end FluentNet
