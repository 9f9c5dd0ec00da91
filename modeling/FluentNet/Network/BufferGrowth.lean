import FluentNet.Network.Buffer
set_option autoImplicit false

/-!
How a buffer grows: sizes are 64-bit, but the new capacity is rounded on an `int`.
-/

namespace FluentNet
namespace Buffer
open Throwing

/-- After `gc(n)` there is room for `n` bytes, the indices and the capacity are
consistent, also when the growth throws, and `append` copies inside the buffer. -/
structure Grows (b : Buffer) (n : Nat) : Prop where
  room : ∀ t, gcHint n b = (.ok (),t) → n ≤ t.unwrite
  wf : (gcHint n b).2.Wf
  inside : ∀ data : List UInt8, data.length = n → (append data b).1 ≠ .error .undefined

/-- Compaction makes the room, or the backlog stays within 2^30 bytes. -/
def Roundable (b : Buffer) (n : Nat) : Prop := n ≤ b.available ∨ b.unread+n ≤ 2^30

instance (b : Buffer) (n : Nat) : Decidable (b.Roundable n) := inferInstanceAs (Decidable (_ ∨ _))

section Growing
variable {b : Buffer} {n : Nat}

theorem Wf.grows (h : b.Wf) (hn : b.Roundable n) : b.Grows n := by
  obtain ⟨t,ht,hw,_,hroom⟩ := h.gcHint hn
  refine ⟨fun u hu => ?_,by rw [ht]; exact hw,fun data hdata => ?_⟩
  · rw [ht] at hu
    cases hu
    exact hroom
  · have hfits : data.length ≤ b.available ∨ b.unread+data.length ≤ 2^30 := hdata ▸ hn
    obtain ⟨u,hu,_⟩ := h.append hfits
    rw [hu]
    simp

theorem Wf.shrinks (h : b.Wf) (hn : ¬b.Roundable n) : ¬b.Grows n := by
  obtain ⟨havail,hunread⟩ := not_or.mp hn
  have heq := h.gcHint_expands (Int.not_le.mp havail)
  have hsize := roundToPowerOfTwo_le (BitVec.ofInt 32 ((b.unread+n).toNat : Int))
  generalize (roundToPowerOfTwo (BitVec.ofInt 32 ((b.unread+n).toNat : Int))).toInt = size at *
  intro hgrows
  have hroom := hgrows.room
  have hwf := hgrows.wf
  rw [heq] at hroom hwf
  simp only [Buffer.expandTo,Act.modify_bind] at hroom hwf
  by_cases h0 : 0 ≤ size
  · rw [resize_ok h0] at hroom hwf
    have hle := hroom _ rfl
    have hr := hwf.r_nonneg
    have hu := gc_unread b
    simp only [unwrite,unread] at *
    omega
  · have hcap := hwf.capacity_eq
    simp only [resize,if_neg h0] at hcap
    omega

/-- The room is made, and the buffer left consistent, just when compaction makes it or
the backlog stays within 2^30 bytes. -/
theorem grows_iff_roundable (b : Buffer) (n : Nat) (h : b.Wf) : b.Grows n ↔ b.Roundable n := by
  exact ⟨fun hg => Decidable.byContradiction (fun hn => h.shrinks hn hg),h.grows⟩

theorem grows_iff_roundable_fresh : (ofSize DEFAULT_SIZE).Wf ∧
    ((ofSize DEFAULT_SIZE).Grows (2^20) ↔ (ofSize DEFAULT_SIZE).Roundable (2^20)) :=
  ⟨ofSize_wf _,grows_iff_roundable (ofSize DEFAULT_SIZE) (2^20) (ofSize_wf _)⟩

/-- One byte more than 2^30 in a fresh buffer: `resize` throws, behind a negative capacity. -/
theorem growth_overflows : ¬∀ (b : Buffer) (n : Nat), b.Wf → n < 2^63 → b.Grows n := by
  intro hall
  have hwf := (hall (ofSize DEFAULT_SIZE) (2^30+1) (ofSize_wf _) (by decide)).wf
  have hcap : (gcHint (2^30+1 : Nat) (ofSize DEFAULT_SIZE)).2.capacity = -2^31 := by decide +kernel
  have hlen := hwf.capacity_eq
  rw [hcap] at hlen
  omega

end Growing

end Buffer
end FluentNet
