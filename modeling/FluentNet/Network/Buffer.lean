import FluentNet.Network.Socket
import FluentNet.Utils.Algorithms
set_option autoImplicit false

namespace FluentNet
open Throwing

/-- `_buf` is the vector's contents; `r` and `w` delimit the unread bytes. -/
structure Buffer where
  buf : List UInt8
  capacity : Int
  r : Int
  w : Int
  deriving DecidableEq, Repr

/-- The kernel's answer to one `::readv`: some bytes, none at the end of the
stream, or an errno. -/
inductive ReadAnswer where
  | data (bytes : List UInt8)
  | fails (err : Nat)
  deriving DecidableEq, Repr

def ReadAnswer.errno : ReadAnswer → Nat
  | .data _ => 0
  | .fails err => err

namespace Buffer

def ofSize (size : Nat) : Buffer := ⟨List.replicate size 0,size,0,0⟩

def DEFAULT_SIZE : Nat := 128

def unread (b : Buffer) : Int := b.w-b.r
def unwrite (b : Buffer) : Int := b.capacity-b.w
def available (b : Buffer) : Int := b.capacity-b.unread

def content (b : Buffer) : List UInt8 := (b.buf.drop b.r.toNat).take b.unread.toNat

def clear (b : Buffer) : Buffer := { b with r := 0, w := 0 }

def gc (b : Buffer) : Buffer :=
  if b.r > 0 then
    { b with
      buf := b.content ++ b.buf.drop b.unread.toNat
      w := b.unread
      r := 0 }
  else b

def reuseIfPossible (b : Buffer) : Buffer :=
  if b.r = b.w then b.clear
  else if b.unread < b.capacity >>> (4 : Nat) ∧ b.r > b.capacity >>> (4 : Nat) then b.gc
  else b

def hasRead (n : Int) (b : Buffer) : Buffer := { b with r := b.r+n }.reuseIfPossible
def hasWritten (n : Int) (b : Buffer) : Buffer := { b with w := b.w+n }

/-- `_buf.resize(size)`: a negative size is a huge `size_t`. -/
def resize (size : Int) : Act Exn Buffer Unit := fun b =>
  if 0 ≤ size then
    (.ok (),{ b with buf := b.buf.take size.toNat ++ List.replicate (size.toNat-b.buf.length) 0 })
  else (.error .lengthError,b)

def expandTo (size : Int) : Act Exn Buffer Unit := do
  Act.modify (fun b => { b with capacity := size })
  resize size

def gcHint (hint : Int) : Act Exn Buffer Unit := do
  let b ← Act.get
  if hint ≤ b.unwrite then pure ()
  else
    Act.modify gc
    let b ← Act.get
    -- still cannot store
    if hint > b.available then
      let appendSize := hint-b.available
      let expectSize := b.buf.length+appendSize
      expandTo (roundToPowerOfTwo (BitVec.ofInt 32 expectSize)).toInt
    else pure ()

/-- `memcpy(writeBuffer(), data, size)`; outside the vector it is undefined. -/
def memcpy (data : List UInt8) : Act Exn Buffer Unit := fun b =>
  if 0 ≤ b.w ∧ b.w+data.length ≤ b.buf.length then
    (.ok (),{ b with buf := b.buf.take b.w.toNat ++ data ++ b.buf.drop (b.w.toNat+data.length) })
  else (.error .undefined,b)

def append (data : List UInt8) : Act Exn Buffer Unit := do
  gcHint data.length
  memcpy data
  Act.modify (hasWritten data.length)

/-- What `readFrom` does with the bytes it got: the part that spilled into
`localBuffer` is appended. -/
def store (bufferLimit : Int) (got : List UInt8) : Act Exn Buffer Unit :=
  if got.length = 0 then pure ()
  else if got.length ≤ bufferLimit then do
    memcpy got
    Act.modify (hasWritten got.length)
  else do
    memcpy (got.take bufferLimit.toNat)
    Act.modify (hasWritten bufferLimit)
    append (got.drop bufferLimit.toNat)

def LOCAL_SIZE : Nat := 65536

theorem LOCAL_SIZE_pos : 0 < LOCAL_SIZE := by decide

def readFrom (ans : ReadAnswer) : Act Exn Buffer Int :=
  match ans with
  | .fails _ => pure (-1)
  | .data bytes => do
      let b ← Act.get
      let bufferLimit := b.unwrite
      -- readv fills the room left in the buffer, then localBuffer
      let got := bytes.take (bufferLimit.toNat+LOCAL_SIZE)
      store bufferLimit got
      pure got.length

/-- The second component of the state is what the kernel has taken from the socket. -/
def writeTo : WriteAnswer → Act Exn (Buffer × List UInt8) Int
  | .accepts k => do
      let (b,_) ← Act.get
      let n := (b.content.take k).length
      Act.modify (fun (b,wire) => (hasRead n b,wire ++ b.content.take k))
      pure n
  | .fails err =>
      if err = EAGAIN ∨ err = EINTR then do
        Act.modify (fun (b,wire) => (hasRead 0 b,wire))
        pure 0
      else Act.throw (.writeException err)

/-- `0 <= _r <= _w <= _capacity = _buf.size()` -/
structure Wf (b : Buffer) : Prop where
  r_nonneg : 0 ≤ b.r
  r_le_w : b.r ≤ b.w
  w_le_capacity : b.w ≤ b.capacity
  capacity_eq : b.capacity = b.buf.length

theorem ofSize_wf (size : Nat) : (ofSize size).Wf := by
  constructor <;> simp [ofSize]

theorem Wf.unread_nonneg {b : Buffer} (h : b.Wf) : 0 ≤ b.unread := by
  have hr := h.r_le_w
  simp only [unread]
  omega

theorem Wf.content_length {b : Buffer} (h : b.Wf) : (b.content.length : Int) = b.unread := by
  obtain ⟨h1,h2,h3,h4⟩ := h
  simp only [content,unread,List.length_take,List.length_drop]
  omega

section Compaction

@[simp] theorem clear_unread (b : Buffer) : b.clear.unread = 0 := rfl

@[simp] theorem gc_unread (b : Buffer) : b.gc.unread = b.unread := by
  unfold gc
  split <;> simp [unread]

@[simp] theorem gc_capacity (b : Buffer) : b.gc.capacity = b.capacity := by
  unfold gc
  split <;> rfl

theorem Wf.gc {b : Buffer} (h : b.Wf) : b.gc.Wf := by
  unfold Buffer.gc
  split
  · have hc := h.content_length
    have hu := h.unread_nonneg
    obtain ⟨h1,h2,h3,h4⟩ := h
    constructor
    · exact Int.le_refl 0
    · exact hu
    · simp only [unread]
      omega
    · simp only [List.length_append,List.length_drop]
      simp only [unread] at *
      omega
  · exact h

theorem Wf.gc_content {b : Buffer} (h : b.Wf) : b.gc.content = b.content := by
  have hc := h.content_length
  unfold Buffer.gc
  split
  · have hlen : (b.unread-0).toNat = b.content.length := by omega
    change ((b.content ++ b.buf.drop b.unread.toNat).drop 0).take (b.unread-0).toNat = b.content
    rw [hlen,List.drop_zero,List.take_left]
  · rfl

theorem gc_r (b : Buffer) (h : 0 ≤ b.r) : b.gc.r = 0 := by
  unfold gc
  split
  · rfl
  · omega

theorem Wf.reuseIfPossible {b : Buffer} (h : b.Wf) : b.reuseIfPossible.Wf := by
  unfold Buffer.reuseIfPossible
  split
  · obtain ⟨h1,h2,h3,h4⟩ := h
    exact ⟨Int.le_refl 0,Int.le_refl 0,by simp only [clear]; omega,h4⟩
  · split
    · exact h.gc
    · exact h

theorem Wf.reuseIfPossible_content {b : Buffer} (h : b.Wf) :
    b.reuseIfPossible.content = b.content := by
  unfold Buffer.reuseIfPossible
  split
  · rename_i he
    have hb : b.unread.toNat = 0 := by simp [unread,he]
    simp only [content,hb,clear_unread,Int.toNat_zero,List.take_zero]
  · split
    · exact h.gc_content
    · rfl

end Compaction

section Reading

theorem reuseIfPossible_unread (b : Buffer) : b.reuseIfPossible.unread = b.unread := by
  unfold reuseIfPossible
  split
  · rename_i he
    have h0 : b.unread = 0 := by simp [unread,he]
    rw [clear_unread,h0]
  · split
    · exact gc_unread b
    · rfl

theorem hasRead_unread (n : Int) (b : Buffer) : (hasRead n b).unread = b.unread-n := by
  rw [hasRead,reuseIfPossible_unread]
  simp only [unread]
  omega

theorem content_length_le (b : Buffer) : b.content.length ≤ b.unread.toNat := by
  rw [content,List.length_take]
  exact Nat.min_le_left _ _

theorem Wf.advance {b : Buffer} (h : b.Wf) {n : Nat} (hn : n ≤ b.unread) :
    Wf { b with r := b.r+n } := by
  obtain ⟨h1,h2,h3,h4⟩ := h
  simp only [unread] at hn
  constructor <;> dsimp only <;> omega

theorem Wf.hasRead {b : Buffer} (h : b.Wf) {n : Nat} (hn : n ≤ b.unread) : (hasRead n b).Wf :=
  (h.advance hn).reuseIfPossible

theorem Wf.hasRead_content {b : Buffer} (h : b.Wf) {n : Nat} (hn : n ≤ b.unread) :
    (Buffer.hasRead n b).content = b.content.drop n := by
  rw [Buffer.hasRead,(h.advance hn).reuseIfPossible_content]
  obtain ⟨h1,h2,h3,h4⟩ := h
  simp only [content,unread] at *
  rw [List.drop_take,List.drop_drop]
  congr 1
  · omega
  · congr 1
    omega

end Reading

section Growth

theorem resize_ok {size : Int} {b : Buffer} (h : 0 ≤ size) :
    resize size b = (.ok (),{ b with
      buf := b.buf.take size.toNat ++ List.replicate (size.toNat-b.buf.length) 0 }) := by
  simp [resize,h]

theorem expandTo_unread (size : Int) (b : Buffer) : (expandTo size b).2.unread = b.unread := by
  simp only [expandTo,Act.modify_bind,resize]
  split <;> rfl

theorem gcHint_unread (hint : Int) (b : Buffer) : (gcHint hint b).2.unread = b.unread := by
  simp only [gcHint,Act.get_bind]
  split
  · rfl
  · simp only [Act.modify_bind,Act.get_bind]
    split
    · rw [expandTo_unread,gc_unread]
    · exact gc_unread b

theorem append_cases {data : List UInt8} {b t : Buffer} {r : Except Exn Unit}
    (h : append data b = (r,t)) :
    (∃ e, r = .error e ∧ t.unread = b.unread) ∨ (r = .ok () ∧ t.unread = b.unread+data.length) := by
  have hu := gcHint_unread data.length b
  simp only [append,Act.bind_apply] at h
  cases hg : gcHint data.length b with
  | mk res g =>
    rw [hg] at h hu
    cases res with
    | error e =>
      cases h
      exact .inl ⟨e,rfl,hu⟩
    | ok _ =>
      by_cases hroom : 0 ≤ g.w ∧ g.w+data.length ≤ g.buf.length
      · simp only [memcpy,if_pos hroom] at h
        cases h
        refine .inr ⟨rfl,?_⟩
        simp only [hasWritten,unread] at *
        omega
      · simp only [memcpy,if_neg hroom] at h
        cases h
        exact .inl ⟨_,rfl,hu⟩

theorem append_unread_of_error {data : List UInt8} {b t : Buffer} {e : Exn}
    (h : append data b = (.error e,t)) : t.unread = b.unread := by
  rcases append_cases h with ⟨_,_,hu⟩ | ⟨hr,_⟩
  · exact hu
  · cases hr

theorem append_unread_of_ok {data : List UInt8} {b t : Buffer} {u : Unit}
    (h : append data b = (.ok u,t)) : t.unread = b.unread+data.length := by
  rcases append_cases h with ⟨_,hr,_⟩ | ⟨_,hu⟩
  · cases hr
  · exact hu

theorem Wf.content_padded {b : Buffer} (h : b.Wf) (zeros : List UInt8) (size : Int) :
    content { b with buf := b.buf ++ zeros, capacity := size } = b.content := by
  obtain ⟨h1,h2,h3,h4⟩ := h
  have hu : b.unread.toNat ≤ (b.buf.drop b.r.toNat).length := by
    simp only [unread,List.length_drop]
    omega
  change ((b.buf ++ zeros).drop b.r.toNat).take b.unread.toNat = b.content
  rw [List.drop_append_of_le_length (by omega),List.take_append_of_le_length hu]
  rfl

theorem Wf.expandTo {b : Buffer} (h : b.Wf) {size : Int} (hle : b.capacity ≤ size) :
    ∃ t, Buffer.expandTo size b = (.ok (),t) ∧ t.Wf ∧ t.content = b.content ∧
      t.r = b.r ∧ t.w = b.w ∧ t.capacity = size := by
  have hcap := h.capacity_eq
  have htake : b.buf.take size.toNat = b.buf := List.take_of_length_le (by omega)
  simp only [Buffer.expandTo,Act.modify_bind]
  rw [resize_ok (by omega)]
  refine ⟨_,rfl,⟨h.r_nonneg,h.r_le_w,Int.le_trans h.w_le_capacity hle,?_⟩,?_,rfl,rfl,rfl⟩
  · simp only [List.length_append,List.length_take,List.length_replicate]
    omega
  · simp only [htake]
    exact h.content_padded _ _

theorem Wf.gcHint_expands {b : Buffer} (h : b.Wf) {n : Nat} (hn : b.available < n) :
    Buffer.gcHint n b = Buffer.expandTo
      (roundToPowerOfTwo (BitVec.ofInt 32 ((b.unread+n).toNat : Int))).toInt b.gc := by
  have hw := h.gc
  have hcap := hw.capacity_eq
  have hu := gc_unread b
  have h1 : ¬(n : Int) ≤ b.unwrite := by
    have hle := h.w_le_capacity
    have hr := h.r_nonneg
    simp only [available,unwrite,unread] at *
    omega
  have h2 : (n : Int) > b.gc.available := by
    simp only [available,gc_unread,gc_capacity] at hn ⊢
    exact hn
  have hexp : (b.gc.buf.length : Int)+(n-b.gc.available) = ((b.unread+n).toNat : Int) := by
    have hu0 := h.unread_nonneg
    simp only [available] at *
    omega
  simp only [Buffer.gcHint,Act.get_bind,if_neg h1,Act.modify_bind,if_pos h2,hexp]

/-- A growth request that compaction meets, or that stays within 2^30 bytes of backlog,
is met and loses nothing. -/
theorem Wf.gcHint {b : Buffer} (h : b.Wf) {n : Nat} (hn : n ≤ b.available ∨ b.unread+n ≤ 2^30) :
    ∃ t, Buffer.gcHint n b = (.ok (),t) ∧ t.Wf ∧ t.content = b.content ∧ (n : Int) ≤ t.unwrite := by
  have hw := h.gc
  have hr := gc_r b h.r_nonneg
  have hu := gc_unread b
  have hu0 := h.unread_nonneg
  by_cases hroom : (n : Int) ≤ b.unwrite
  · exact ⟨b,by simp only [Buffer.gcHint,Act.get_bind,if_pos hroom]; rfl,h,rfl,hroom⟩
  by_cases hcompact : (n : Int) ≤ b.available
  · refine ⟨b.gc,?_,hw,h.gc_content,?_⟩
    · have hle : ¬(n : Int) > b.gc.available := by
        simp only [available,gc_unread,gc_capacity] at hcompact ⊢
        omega
      simp only [Buffer.gcHint,Act.get_bind,if_neg hroom,Act.modify_bind,if_neg hle]
      rfl
    · simp only [available,unwrite,unread,gc_capacity] at *
      omega
  · have hsum : b.unread+n ≤ 2^30 := hn.resolve_left hcompact
    have hpos : 1 ≤ (b.unread+n).toNat := by
      have hle := h.w_le_capacity
      have hr0 := h.r_nonneg
      simp only [available,unread] at *
      omega
    obtain ⟨hlow,hhigh⟩ := roundToPowerOfTwo_bounds hpos (by omega)
    have hgrow : b.gc.capacity ≤
        (roundToPowerOfTwo (BitVec.ofInt 32 ((b.unread+n).toNat : Int))).toInt := by
      rw [gc_capacity]
      simp only [available] at hcompact
      omega
    obtain ⟨t,ht,hwt,hct,hrt,hwt',hcap⟩ := hw.expandTo hgrow
    refine ⟨t,(h.gcHint_expands (by omega)).trans ht,hwt,hct.trans h.gc_content,?_⟩
    simp only [unwrite,unread] at *
    omega

theorem content_stored {b : Buffer} (h0 : 0 ≤ b.r) (h1 : b.r ≤ b.w) {data : List UInt8}
    (hfit : b.w+data.length ≤ b.buf.length) :
    content { b with
      buf := b.buf.take b.w.toNat ++ data ++ b.buf.drop (b.w.toNat+data.length)
      w := b.w+data.length } = b.content ++ data := by
  have hr : b.r.toNat ≤ (b.buf.take b.w.toNat).length := by
    rw [List.length_take]
    omega
  have hold : (b.buf.take b.w.toNat).drop b.r.toNat = b.content := by
    have hu : b.unread.toNat = b.w.toNat-b.r.toNat := by
      simp only [unread]
      omega
    rw [List.drop_take,content,hu]
  have hlen : (b.w+data.length-b.r).toNat = b.content.length+data.length := by
    rw [← hold,List.length_drop,List.length_take]
    omega
  change ((b.buf.take b.w.toNat ++ data ++ b.buf.drop (b.w.toNat+data.length)).drop
    b.r.toNat).take (b.w+data.length-b.r).toNat = b.content ++ data
  rw [hlen,List.append_assoc,List.drop_append_of_le_length hr,hold,
    List.take_length_add_append,List.take_left]

theorem Wf.stored {b : Buffer} (h : b.Wf) {data : List UInt8} (hfit : data.length ≤ b.unwrite) :
    ∃ t, memcpy data b = (.ok (),t) ∧ (hasWritten data.length t).Wf ∧
      (hasWritten data.length t).content = b.content ++ data ∧
      (hasWritten data.length t).unread = b.unread+data.length := by
  obtain ⟨h1,h2,h3,h4⟩ := h
  simp only [unwrite] at hfit
  have hin : 0 ≤ b.w ∧ b.w+data.length ≤ b.buf.length := by omega
  refine ⟨_,if_pos hin,?_,content_stored h1 h2 hin.2,?_⟩
  · constructor
    · exact h1
    · simp only [hasWritten]
      omega
    · simp only [hasWritten]
      omega
    · simp only [hasWritten,List.length_append,List.length_take,List.length_drop]
      omega
  · simp only [hasWritten,unread]
    omega

theorem Wf.append {b : Buffer} (h : b.Wf) {data : List UInt8}
    (hn : data.length ≤ b.available ∨ b.unread+data.length ≤ 2^30) :
    ∃ t, Buffer.append data b = (.ok (),t) ∧ t.Wf ∧ t.content = b.content ++ data := by
  obtain ⟨g,hg,hw,hc,hroom⟩ := h.gcHint hn
  obtain ⟨t,ht,hwt,hct,_⟩ := hw.stored hroom
  refine ⟨hasWritten data.length t,?_,hwt,?_⟩
  · rw [Buffer.append,Act.bind_of_ok hg,Act.bind_of_ok ht]
    rfl
  · rw [hct,hc]

end Growth

section Writing

theorem writeTo_cases (ans : WriteAnswer) (b : Buffer) (wire : List UInt8) :
    (∃ err, ans.Fatal err ∧ writeTo ans (b,wire) = (.error (.writeException err),(b,wire))) ∨
    writeTo ans (b,wire) = (.ok (ans.taken b.content).length,
      (hasRead (ans.taken b.content).length b,wire ++ ans.taken b.content)) := by
  cases ans with
  | accepts k => exact .inr rfl
  | fails err =>
    by_cases he : err = EAGAIN ∨ err = EINTR
    · exact .inr (by simp [writeTo,he,WriteAnswer.taken])
    · exact .inl ⟨err,⟨rfl,not_or.mp he⟩,by simp [writeTo,he]⟩

end Writing

end Buffer
end FluentNet
