import Mathlib.Data.List.Nodup
import Mathlib.Logic.Function.Basic
set_option autoImplicit false

/-!
A part of x86-64: moves between registers and memory, `xor` of a register with
itself, calls and returns. Memory is made of blocks that lie apart; a word is a
number, a place in a block or a place in the code, and lies at a multiple of eight.
-/

namespace X86

inductive Reg where
  | rax | rbx | rcx | rdx | rsi | rdi | rbp | rsp | r8 | r9 | r10 | r11 | r12 | r13 | r14 | r15
  deriving DecidableEq, Repr

structure Addr (β : Type) where
  block : β
  offset : Nat
  deriving DecidableEq, Repr

inductive Word (β κ : Type) where
  | int (n : BitVec 64)
  | ptr (a : Addr β)
  | code (l : κ)
  deriving DecidableEq, Repr

structure State (β κ : Type) where
  regs : Reg → Word β κ
  mem : Addr β → Word β κ
  rip : κ

inductive Instr where
  /-- `movq %src, %dst` -/
  | mov (src dst : Reg)
  /-- `movq %src, disp(%base)` -/
  | store (src : Reg) (disp : Nat) (base : Reg)
  /-- `movq disp(%base), %dst` -/
  | load (disp : Nat) (base dst : Reg)
  /-- `xorq %r, %r` -/
  | zero (r : Reg)
  deriving DecidableEq, Repr

variable {β κ : Type} [DecidableEq β]

def Addr.plus (a : Addr β) (disp : Nat) : Addr β := ⟨a.block,a.offset+disp⟩

namespace State

def setReg (s : State β κ) (r : Reg) (w : Word β κ) : State β κ :=
  { s with regs := Function.update s.regs r w }

def setMem (s : State β κ) (a : Addr β) (w : Word β κ) : State β κ :=
  { s with mem := Function.update s.mem a w }

/-- `disp(%base)`, when it is where a word may lie. -/
def address (s : State β κ) (disp : Nat) (base : Reg) : Option (Addr β) :=
  match s.regs base with
  | .ptr a => if 8 ∣ a.offset+disp then some (a.plus disp) else none
  | _ => none

def exec (s : State β κ) : Instr → Option (State β κ)
  | .mov src dst => some (s.setReg dst (s.regs src))
  | .store src disp base => (s.address disp base).map (fun a => s.setMem a (s.regs src))
  | .load disp base dst => (s.address disp base).map (fun a => s.setReg dst (s.mem a))
  | .zero r => some (s.setReg r (.int 0))

def run : List Instr → State β κ → Option (State β κ)
  | [], s => some s
  | i :: is, s => (s.exec i).bind (run is)

/-- `call`: the place to return to goes on the stack. -/
def call (s : State β κ) (ra : κ) : Option (State β κ) :=
  match s.regs .rsp with
  | .ptr a =>
      if 8 ∣ a.offset ∧ 8 ≤ a.offset then
        let top : Addr β := ⟨a.block,a.offset-8⟩
        some ((s.setReg .rsp (.ptr top)).setMem top (.code ra))
      else none
  | _ => none

def ret (s : State β κ) : Option (State β κ) :=
  (s.address 0 .rsp).bind (fun a =>
    match s.mem a with
    | .code l => some { s.setReg .rsp (.ptr (a.plus 8)) with rip := l }
    | _ => none)

def invoke (s : State β κ) (body : List Instr) (ra : κ) : Option (State β κ) :=
  ((s.call ra).bind (run body)).bind ret

omit [DecidableEq β] in
theorem setReg_self (s : State β κ) (r : Reg) (w : Word β κ) : (s.setReg r w).regs r = w :=
  Function.update_self _ _ _

omit [DecidableEq β] in
theorem setReg_other (s : State β κ) {q r : Reg} (h : q ≠ r) (w : Word β κ) :
    (s.setReg r w).regs q = s.regs q := Function.update_of_ne h _ _

theorem run_append (is js : List Instr) (s : State β κ) :
    run (is ++ js) s = (run is s).bind (run js) := by
  induction is generalizing s with
  | nil => rfl
  | cons i is ih =>
    rw [List.cons_append,run,run,Option.bind_assoc]
    exact Option.bind_congr (fun t _ => ih t)

omit [DecidableEq β] in
theorem address_ptr {s : State β κ} {base : Reg} {a : Addr β} {disp : Nat}
    (h : s.regs base = .ptr a) (ha : 8 ∣ a.offset+disp) : s.address disp base = some (a.plus disp) := by
  simp only [address,h,if_pos ha]

end State

section Blocks
variable (a : Addr β)

/-- Memory once each of these registers has been stored at its distance from `a`. -/
def stored (regs : Reg → Word β κ) : List (Reg × Nat) → (Addr β → Word β κ) → Addr β → Word β κ
  | [], mem => mem
  | (r,disp) :: ps, mem => stored regs ps (Function.update mem (a.plus disp) (regs r))

def loaded (mem : Addr β → Word β κ) : List (Reg × Nat) → (Reg → Word β κ) → Reg → Word β κ
  | [], regs => regs
  | (r,disp) :: ps, regs => loaded mem ps (Function.update regs r (mem (a.plus disp)))

variable {a}

theorem run_stores {ps : List (Reg × Nat)} {base : Reg} {s : State β κ} (h : s.regs base = .ptr a)
    (halign : ∀ p ∈ ps, 8 ∣ a.offset+p.2) :
    s.run (ps.map (fun p => .store p.1 p.2 base)) =
      some { s with mem := stored a s.regs ps s.mem } := by
  induction ps generalizing s with
  | nil => rfl
  | cons p ps ih =>
    obtain ⟨r,disp⟩ := p
    have haddr := State.address_ptr h (halign (r,disp) List.mem_cons_self)
    rw [List.map_cons,State.run,State.exec,haddr]
    exact ih (s := s.setMem (a.plus disp) (s.regs r)) h (fun q hq => halign q (List.mem_cons_of_mem _ hq))

theorem run_loads {ps : List (Reg × Nat)} {base : Reg} {s : State β κ} (h : s.regs base = .ptr a)
    (halign : ∀ p ∈ ps, 8 ∣ a.offset+p.2) (hbase : ∀ p ∈ ps, p.1 ≠ base) :
    s.run (ps.map (fun p => .load p.2 base p.1)) =
      some { s with regs := loaded a s.mem ps s.regs } := by
  induction ps generalizing s with
  | nil => rfl
  | cons p ps ih =>
    obtain ⟨r,disp⟩ := p
    have haddr := State.address_ptr h (halign (r,disp) List.mem_cons_self)
    have hkeep : (s.setReg r (s.mem (a.plus disp))).regs base = .ptr a := by
      rw [← h]
      exact Function.update_of_ne (hbase (r,disp) List.mem_cons_self).symm _ _
    rw [List.map_cons,State.run,State.exec,haddr]
    exact ih (s := s.setReg r (s.mem (a.plus disp))) hkeep
      (fun q hq => halign q (List.mem_cons_of_mem _ hq)) (fun q hq => hbase q (List.mem_cons_of_mem _ hq))

theorem stored_other {regs : Reg → Word β κ} {ps : List (Reg × Nat)} {mem : Addr β → Word β κ} {b : Addr β}
    (h : ∀ p ∈ ps, b ≠ a.plus p.2) : stored a regs ps mem b = mem b := by
  induction ps generalizing mem with
  | nil => rfl
  | cons p ps ih =>
    rw [stored,ih (fun q hq => h q (List.mem_cons_of_mem _ hq))]
    exact Function.update_of_ne (h p List.mem_cons_self) _ _

omit [DecidableEq β] in
theorem Addr.plus_injective {i j : Nat} (h : a.plus i = a.plus j) : i = j := by
  have ho : a.offset+i = a.offset+j := congrArg Addr.offset h
  omega

theorem stored_at (regs : Reg → Word β κ) {ps : List (Reg × Nat)} (mem : Addr β → Word β κ)
    (hps : (ps.map Prod.snd).Nodup) {p : Reg × Nat} (hp : p ∈ ps) :
    stored a regs ps mem (a.plus p.2) = regs p.1 := by
  induction ps generalizing mem with
  | nil => cases hp
  | cons q ps ih =>
    obtain ⟨hout,hnodup⟩ := List.nodup_cons.mp hps
    rw [stored]
    rcases List.mem_cons.mp hp with rfl | hin
    · rw [stored_other,Function.update_self]
      intro r hr he
      exact hout (Addr.plus_injective he ▸ List.mem_map_of_mem hr)
    · exact ih _ hnodup hin

omit [DecidableEq β] in
theorem loaded_other {mem : Addr β → Word β κ} {ps : List (Reg × Nat)} {regs : Reg → Word β κ} {r : Reg}
    (h : ∀ p ∈ ps, r ≠ p.1) : loaded a mem ps regs r = regs r := by
  induction ps generalizing regs with
  | nil => rfl
  | cons p ps ih =>
    rw [loaded,ih (fun q hq => h q (List.mem_cons_of_mem _ hq))]
    exact Function.update_of_ne (h p List.mem_cons_self) _ _

omit [DecidableEq β] in
theorem loaded_at {mem : Addr β → Word β κ} {ps : List (Reg × Nat)} {regs : Reg → Word β κ}
    (hps : (ps.map Prod.fst).Nodup) {p : Reg × Nat} (hp : p ∈ ps) :
    loaded a mem ps regs p.1 = mem (a.plus p.2) := by
  induction ps generalizing regs with
  | nil => cases hp
  | cons q ps ih =>
    obtain ⟨hout,hnodup⟩ := List.nodup_cons.mp hps
    rw [loaded]
    rcases List.mem_cons.mp hp with rfl | hin
    · rw [loaded_other,Function.update_self]
      intro r hr he
      exact hout (he ▸ List.mem_map_of_mem hr)
    · exact ih hnodup hin

theorem run_loads_last {ps : List (Reg × Nat)} {base : Reg} {disp : Nat} {s : State β κ}
    (h : s.regs base = .ptr a) (halign : ∀ p ∈ (base,disp) :: ps, 8 ∣ a.offset+p.2)
    (hps : (((base,disp) :: ps).map Prod.fst).Nodup) :
    ∃ t, s.run (ps.map (fun p => .load p.2 base p.1) ++ [.load disp base base]) = some t ∧
      t.mem = s.mem ∧ t.rip = s.rip ∧
      (∀ p ∈ (base,disp) :: ps, t.regs p.1 = s.mem (a.plus p.2)) := by
  obtain ⟨hout,hnodup⟩ := List.nodup_cons.mp hps
  have hbase : ∀ p ∈ ps, p.1 ≠ base := fun p hp he => hout (List.mem_map.mpr ⟨p,hp,he⟩)
  have hloads := run_loads h (fun p hp => halign p (List.mem_cons_of_mem _ hp)) hbase
  have hkeep : loaded a s.mem ps s.regs base = .ptr a :=
    (loaded_other (fun p hp => (hbase p hp).symm)).trans h
  have haddr : State.address { s with regs := loaded a s.mem ps s.regs } disp base = some (a.plus disp) :=
    State.address_ptr hkeep (halign (base,disp) List.mem_cons_self)
  refine ⟨State.setReg { s with regs := loaded a s.mem ps s.regs } base (s.mem (a.plus disp)),?_,rfl,rfl,?_⟩
  · rw [State.run_append,hloads,Option.bind_some,State.run,State.exec,haddr]
    rfl
  · intro p hp
    rcases List.mem_cons.mp hp with rfl | hin
    · exact Function.update_self _ _ _
    · exact (Function.update_of_ne (hbase p hin) _ _).trans (loaded_at hnodup hin)

end Blocks

end X86
