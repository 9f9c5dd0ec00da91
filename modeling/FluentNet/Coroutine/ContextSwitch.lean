import FluentNet.Library.X86
set_option autoImplicit false

/-!
How the CPU leaves one `Context` for another: the assembly of `contextswitch.h`,
and what `prepare` puts into a new one.
-/

namespace FluentNet
namespace Coroutines
open X86

/-- Where memory lies: the stack of the thread, a `Context`, a `Coroutine` or
something else. -/
inductive Block where
  | thread
  | context (k : Nat)
  | coroutine (c : Nat)
  | other (n : Nat)
  deriving DecidableEq, Repr

/-- A place in the code: where `routineWrapper` begins, or one behind a call. -/
inductive Code where
  | routineWrapper
  | after (n : Nat)
  deriving DecidableEq, Repr

abbrev Cpu := State Block Code

def contextSwitch : List Instr :=
  [.mov .rsp .rax,.store .rax 104 .rdi,.store .rbx 96 .rdi,.store .rcx 88 .rdi,.store .rdx 80 .rdi,
    .load 0 .rax .rax,.store .rax 72 .rdi,.store .rsi 64 .rdi,.store .rdi 56 .rdi,.store .rbp 48 .rdi,
    .store .r8 40 .rdi,.store .r9 32 .rdi,.store .r12 24 .rdi,.store .r13 16 .rdi,.store .r14 8 .rdi,
    .store .r15 0 .rdi,
    .load 48 .rsi .rbp,.load 104 .rsi .rsp,.load 0 .rsi .r15,.load 8 .rsi .r14,.load 16 .rsi .r13,
    .load 24 .rsi .r12,.load 32 .rsi .r9,.load 40 .rsi .r8,.load 56 .rsi .rdi,.load 72 .rsi .rax,
    .load 80 .rsi .rdx,.load 88 .rsi .rcx,.load 96 .rsi .rbx,
    .load 64 .rsi .rsi,
    .store .rax 0 .rsp,.zero .rax]

def contextSwitchOnly : List Instr :=
  [.load 48 .rdi .rbp,.load 104 .rdi .rsp,.load 0 .rdi .r15,.load 8 .rdi .r14,.load 16 .rdi .r13,
    .load 24 .rdi .r12,.load 32 .rdi .r9,.load 40 .rdi .r8,.load 64 .rdi .rsi,.load 72 .rdi .rax,
    .load 80 .rdi .rdx,.load 88 .rdi .rcx,.load 96 .rdi .rbx,
    .load 56 .rdi .rdi,
    .store .rax 0 .rsp,.zero .rax]

/-- A pointer to the `Context` numbered `k`; `_registers` lies at its begin. -/
def contextPtr (k : Nat) : Addr Block := ⟨.context k,0⟩

def REGISTERS_SIZE : Nat := 14*8
def STACK_SIZE : Nat := 1 <<< 17

def RDI : Nat := 7
def RET : Nat := 9
def RSP : Nat := 13

/-- A `Context` is aligned to 16 bytes, so its offsets can be instead of its addresses. -/
def getSp (k : Nat) : Addr Block :=
  let sp := REGISTERS_SIZE+STACK_SIZE-8
  ⟨.context k,sp-sp%16⟩

def register (k i : Nat) : Addr Block := (contextPtr k).plus (8*i)

def fillRegisters (k : Nat) (sp : Addr Block) (ret : Code) (rdi : Word Block Code)
    (mem : Addr Block → Word Block Code) : Addr Block → Word Block Code :=
  let cleared := fun a => if a.block = .context k ∧ a.offset < REGISTERS_SIZE then .int 0 else mem a
  let pushed := Function.update cleared sp (.code ret)
  let filled := Function.update pushed (register k RSP) (.ptr sp)
  let filled := Function.update filled (register k RET) (filled sp)
  Function.update filled (register k RDI) rdi

def prepare (s : Cpu) (k : Nat) (ret : Code) (rdi : Word Block Code) : Cpu :=
  { s with mem := fillRegisters k (getSp k) ret rdi s.mem }

def withArguments (s : Cpu) (previous next : Nat) : Cpu :=
  (s.setReg .rdi (.ptr (contextPtr previous))).setReg .rsi (.ptr (contextPtr next))

/-- `contextSwitch(previous, next)`, called from in front of `ra` -/
def switchFrom (s : Cpu) (previous next : Nat) (ra : Code) : Option Cpu :=
  (withArguments s previous next).invoke contextSwitch ra

def switchOnly (s : Cpu) (next : Nat) (ra : Code) : Option Cpu :=
  (s.setReg .rdi (.ptr (contextPtr next))).invoke contextSwitchOnly ra

/-- Where code goes on: at `rip`, once it has taken the word at `top` off the stack. -/
structure Point where
  rip : Code
  top : Addr Block
  regs : Reg → Word Block Code

def entry (k : Nat) (ret : Code) (rdi : Word Block Code) : Point :=
  ⟨ret,getSp k,fun r => if r = .rdi then rdi else .int 0⟩

/-- The registers that are kept in a `Context`, and how far from its begin. -/
def layout : List (Reg × Nat) :=
  [(.rbx,96),(.rcx,88),(.rdx,80)] ++
    [(.rsi,64),(.rdi,56),(.rbp,48),(.r8,40),(.r9,32),(.r12,24),(.r13,16),(.r14,8),(.r15,0)]

structure Resumes (s : Cpu) (p : Point) : Prop where
  rip : s.rip = p.rip
  rsp : s.regs .rsp = .ptr (p.top.plus 8)
  regs : ∀ q ∈ layout, s.regs q.1 = p.regs q.1

structure Saved (mem : Addr Block → Word Block Code) (k : Nat) (p : Point) : Prop where
  rip : mem (register k RET) = .code p.rip
  top : mem (register k RSP) = .ptr p.top
  regs : ∀ q ∈ layout, mem ((contextPtr k).plus q.2) = p.regs q.1

def OffRegisters (a : Addr Block) : Prop := ∀ k d, d < REGISTERS_SIZE → a ≠ (contextPtr k).plus d

theorem Saved.congr {mem mem' : Addr Block → Word Block Code} {k : Nat} {p : Point} (h : Saved mem k p)
    (heq : ∀ d < REGISTERS_SIZE, mem' ((contextPtr k).plus d) = mem ((contextPtr k).plus d)) : Saved mem' k p := by
  have hlt : ∀ q ∈ layout, q.2 < REGISTERS_SIZE := by decide
  exact ⟨(heq _ (by decide)).trans h.rip,(heq _ (by decide)).trans h.top,
    fun q hq => (heq _ (hlt q hq)).trans (h.regs q hq)⟩

section Switching
variable {s : Cpu}

theorem stored_saved {a : Addr Block} {regs : Reg → Word Block Code} {ps : List (Reg × Nat)}
    {mem : Addr Block → Word Block Code} {b : Addr Block} (h : ∀ d < REGISTERS_SIZE, b ≠ a.plus d)
    (hps : ∀ p ∈ ps, p.2 < REGISTERS_SIZE) : stored a regs ps mem b = mem b :=
  stored_other (fun p hp => h p.2 (hps p hp))

theorem run_leave {k : Nat} {sp : Addr Block} {ra : Code} (hrdi : s.regs .rdi = .ptr (contextPtr k))
    (hrsp : s.regs .rsp = .ptr sp) (halign : 8 ∣ sp.offset) (hout : OffRegisters sp)
    (hra : s.mem sp = .code ra) :
    ∃ t, s.run (contextSwitch.take 16) = some t ∧ t.rip = s.rip ∧ (∀ r, r ≠ .rax → t.regs r = s.regs r) ∧
      Saved t.mem k ⟨ra,sp,s.regs⟩ ∧
      ∀ a, (∀ d < REGISTERS_SIZE, a ≠ (contextPtr k).plus d) → t.mem a = s.mem a := by
  let first : List (Reg × Nat) := [(.rax,104),(.rbx,96),(.rcx,88),(.rdx,80)]
  let second : List (Reg × Nat) := (.rax,72) :: layout.drop 3
  have hcode : contextSwitch.take 16 = .mov .rsp .rax :: first.map (fun p => .store p.1 p.2 .rdi) ++
      (.load 0 .rax .rax :: second.map (fun p => .store p.1 p.2 .rdi)) := rfl
  have halign8 : ∀ ps : List (Reg × Nat), (∀ p ∈ ps, 8 ∣ p.2) →
      ∀ p ∈ ps, 8 ∣ (contextPtr k).offset+p.2 := by
    intro ps hps p hp
    rw [contextPtr,Nat.zero_add]
    exact hps p hp
  let s₁ : Cpu := s.setReg .rax (.ptr sp)
  have hrdi₁ : s₁.regs .rdi = .ptr (contextPtr k) := hrdi
  let s₂ : Cpu := { s₁ with mem := stored (contextPtr k) s₁.regs first s.mem }
  have hrun₂ : s₁.run (first.map (fun p => .store p.1 p.2 .rdi)) = some s₂ :=
    run_stores hrdi₁ (halign8 _ (by decide))
  have htop : s₂.mem sp = .code ra := (stored_saved (hout k) (by decide)).trans hra
  let s₃ : Cpu := s₂.setReg .rax (.code ra)
  have hload : s₂.exec (.load 0 .rax .rax) = some s₃ := by
    have haddr : s₂.address 0 .rax = some sp := State.address_ptr (a := sp) rfl halign
    rw [State.exec,haddr,Option.map_some,htop]
  let s₄ : Cpu := { s₃ with mem := stored (contextPtr k) s₃.regs second s₂.mem }
  have hrun₄ : s₃.run (second.map (fun p => .store p.1 p.2 .rdi)) = some s₄ :=
    run_stores hrdi₁ (halign8 _ (by decide))
  have hregs : ∀ r, r ≠ .rax → s₄.regs r = s.regs r := by
    intro r hr
    exact (State.setReg_other s₂ hr _).trans (State.setReg_other s hr _)
  refine ⟨s₄,?_,rfl,hregs,?_,?_⟩
  · rw [hcode,State.run_append,State.run,State.exec,hrsp]
    change ((s₁.run _).bind _) = _
    rw [hrun₂,Option.bind_some,State.run,hload]
    exact hrun₄
  · -- what the first stores left is not touched by the second
    have hfirst : ∀ p ∈ first, (∀ q ∈ second, p.2 ≠ q.2) →
        s₄.mem ((contextPtr k).plus p.2) = s₁.regs p.1 := by
      intro p hp hne
      rw [← stored_at s₁.regs s.mem (by decide) hp]
      exact stored_other (fun q hq he => hne q hq (Addr.plus_injective he))
    have hsecond : ∀ p ∈ second, s₄.mem ((contextPtr k).plus p.2) = s₃.regs p.1 :=
      fun p hp => stored_at _ _ (by decide) hp
    have hrax : ∀ q ∈ layout, q.1 ≠ .rax := by decide
    refine ⟨hsecond (.rax,72) (by decide),hfirst (.rax,104) (by decide) (by decide),fun q hq => ?_⟩
    have hsplit : q ∈ layout.take 3 ∨ q ∈ layout.drop 3 := List.mem_append.mp hq
    rcases hsplit with hq' | hq'
    · have hin : ∀ q ∈ layout.take 3, q ∈ first ∧ ∀ p ∈ second, q.2 ≠ p.2 := by decide
      rw [hfirst q (hin q hq').1 (hin q hq').2]
      exact Function.update_of_ne (hrax q hq) _ _
    · have hin : ∀ q ∈ layout.drop 3, q ∈ second := by decide
      exact (hsecond q (hin q hq')).trans (hregs q.1 (hrax q hq))
  · intro a ha
    exact (stored_saved ha (by decide)).trans (stored_saved ha (by decide))

theorem run_enter {k : Nat} {p : Point} {base : Reg} (disp : Nat) (ps : List (Reg × Nat))
    (hbase : s.regs base = .ptr (contextPtr k)) (hsaved : Saved s.mem k p) (halign : 8 ∣ p.top.offset)
    (hall : ((base,disp) :: ps).Perm ((.rsp,8*RSP) :: (.rax,8*RET) :: layout)) :
    ∃ t, (s.run (ps.map (fun p => .load p.2 base p.1) ++ [.load disp base base] ++
        [.store .rax 0 .rsp,.zero .rax])).bind State.ret = some t ∧
      Resumes t p ∧ t.mem = Function.update s.mem p.top (.code p.rip) := by
  have hmem : ∀ q ∈ (base,disp) :: ps, q ∈ (.rsp,8*RSP) :: (.rax,8*RET) :: layout :=
    fun q hq => hall.mem_iff.mp hq
  have haligned : ∀ q ∈ (.rsp,8*RSP) :: (.rax,8*RET) :: layout, 8 ∣ q.2 := by decide
  have hnodup : (((base,disp) :: ps).map Prod.fst).Nodup :=
    (hall.map Prod.fst).nodup_iff.mpr (by decide)
  obtain ⟨u,hu,humem,hurip,huregs⟩ := run_loads_last hbase
    (fun q hq => by rw [contextPtr,Nat.zero_add]; exact haligned q (hmem q hq)) hnodup
  have hreg : ∀ q ∈ (.rsp,8*RSP) :: (.rax,8*RET) :: layout, u.regs q.1 = s.mem ((contextPtr k).plus q.2) :=
    fun q hq => huregs q (hall.mem_iff.mpr hq)
  have hrsp : u.regs .rsp = .ptr p.top := (hreg (.rsp,8*RSP) (by decide)).trans hsaved.top
  have hrax : u.regs .rax = .code p.rip := (hreg (.rax,8*RET) (by decide)).trans hsaved.rip
  have haddr : u.address 0 .rsp = some p.top := State.address_ptr hrsp halign
  let v : Cpu := (u.setMem p.top (.code p.rip)).setReg .rax (.int 0)
  have hrun : u.run [.store .rax 0 .rsp,.zero .rax] = some v := by
    rw [State.run,State.exec,haddr,hrax]
    rfl
  have hvaddr : v.address 0 .rsp = some p.top := State.address_ptr hrsp halign
  have hvtop : v.mem p.top = .code p.rip := Function.update_self _ _ _
  refine ⟨{ v.setReg .rsp (.ptr (p.top.plus 8)) with rip := p.rip },?_,⟨rfl,?_,?_⟩,?_⟩
  · rw [State.run_append,hu,Option.bind_some,hrun,Option.bind_some,State.ret,hvaddr,Option.bind_some,hvtop]
  · exact State.setReg_self v .rsp (.ptr (p.top.plus 8))
  · intro q hq
    have hne : ∀ q ∈ layout, q.1 ≠ .rsp ∧ q.1 ≠ .rax := by decide
    rw [← hsaved.regs q hq,← hreg q (List.mem_cons_of_mem _ (List.mem_cons_of_mem _ hq))]
    exact (State.setReg_other v (hne q hq).1 _).trans (State.setReg_other _ (hne q hq).2 _)
  · change Function.update u.mem p.top (.code p.rip) = _
    rw [humem]

theorem call_top {top : Addr Block} (hrsp : s.regs .rsp = .ptr (top.plus 8)) (halign : 8 ∣ top.offset) (ra : Code) :
    s.call ra = some ((s.setReg .rsp (.ptr top)).setMem top (.code ra)) := by
  have hroom : 8 ∣ (top.plus 8).offset ∧ 8 ≤ (top.plus 8).offset :=
    ⟨Nat.dvd_add halign (Nat.dvd_refl 8),Nat.le_add_left 8 _⟩
  simp only [State.call,hrsp,if_pos hroom]
  rfl

/-- The one `Context` keeps where the code was left, the code goes on where the other
was left, and no more of memory changes than the words that both return by. -/
theorem switchFrom_saves {previous next : Nat} {top : Addr Block} {p : Point} (ra : Code)
    (hne : previous ≠ next) (hrsp : s.regs .rsp = .ptr (top.plus 8)) (halign : 8 ∣ top.offset)
    (hout : OffRegisters top) (hsaved : Saved s.mem next p) (hp : 8 ∣ p.top.offset) (hpout : OffRegisters p.top) :
    ∃ t, switchFrom s previous next ra = some t ∧ Resumes t p ∧
      Saved t.mem previous ⟨ra,top,(withArguments s previous next).regs⟩ ∧
      ∀ a, (∀ d < REGISTERS_SIZE, a ≠ (contextPtr previous).plus d) → a ≠ top → a ≠ p.top →
        t.mem a = s.mem a := by
  let w := withArguments s previous next
  let s₀ : Cpu := (w.setReg .rsp (.ptr top)).setMem top (.code ra)
  have hwrsp : w.regs .rsp = .ptr (top.plus 8) := hrsp
  have hcall : w.call ra = some s₀ := call_top hwrsp halign ra
  have hmem₀ : ∀ a, a ≠ top → s₀.mem a = s.mem a := fun a ha => Function.update_of_ne ha _ _
  have hrdi₀ : s₀.regs .rdi = .ptr (contextPtr previous) := rfl
  have hrsp₀ : s₀.regs .rsp = .ptr top := rfl
  have hra₀ : s₀.mem top = .code ra := Function.update_self _ _ _
  obtain ⟨u,hu,_,huregs,husaved,hukeep⟩ := run_leave hrdi₀ hrsp₀ halign hout hra₀
  -- the other one's registers are where they were
  have hother : ∀ d < REGISTERS_SIZE, u.mem ((contextPtr next).plus d) = s.mem ((contextPtr next).plus d) := by
    intro d hd
    have happart : ∀ e < REGISTERS_SIZE, (contextPtr next).plus d ≠ (contextPtr previous).plus e := by
      intro e _ he
      exact hne (Block.context.inj (congrArg Addr.block he)).symm
    exact (hukeep _ happart).trans (hmem₀ _ (hout next d hd).symm)
  have hursi : u.regs .rsi = .ptr (contextPtr next) := (huregs .rsi (by decide)).trans rfl
  obtain ⟨t,ht,hresumes,htmem⟩ := run_enter 64
    ([(.rbp,48),(.rsp,104),(.r15,0),(.r14,8),(.r13,16),(.r12,24),(.r9,32),(.r8,40),(.rdi,56),(.rax,72),
      (.rdx,80),(.rcx,88),(.rbx,96)]) hursi (hsaved.congr hother) hp (by decide)
  refine ⟨t,?_,hresumes,?_,?_⟩
  · have hcode : contextSwitch = contextSwitch.take 16 ++ contextSwitch.drop 16 := rfl
    rw [switchFrom,State.invoke,hcall,Option.bind_some,hcode,State.run_append,hu,Option.bind_some]
    exact ht
  · have hkept : ∀ q ∈ layout, s₀.regs q.1 = w.regs q.1 := by
      have hrsp' : ∀ q ∈ layout, q.1 ≠ .rsp := by decide
      exact fun q hq => Function.update_of_ne (hrsp' q hq) _ _
    have hsame : Saved u.mem previous ⟨ra,top,w.regs⟩ :=
      ⟨husaved.rip,husaved.top,fun q hq => (husaved.regs q hq).trans (hkept q hq)⟩
    refine hsame.congr (fun d hd => ?_)
    rw [htmem]
    exact Function.update_of_ne (hpout previous d hd).symm _ _
  · intro a ha hatop hap
    rw [htmem,Function.update_of_ne hap,hukeep a ha]
    exact hmem₀ a hatop

theorem switchOnly_resumes {next : Nat} {top : Addr Block} {p : Point} (ra : Code)
    (hrsp : s.regs .rsp = .ptr (top.plus 8)) (halign : 8 ∣ top.offset) (hout : OffRegisters top)
    (hsaved : Saved s.mem next p) (hp : 8 ∣ p.top.offset) :
    ∃ t, switchOnly s next ra = some t ∧ Resumes t p ∧
      ∀ a, a ≠ top → a ≠ p.top → t.mem a = s.mem a := by
  let w := s.setReg .rdi (.ptr (contextPtr next))
  let s₀ : Cpu := (w.setReg .rsp (.ptr top)).setMem top (.code ra)
  have hwrsp : w.regs .rsp = .ptr (top.plus 8) := hrsp
  have hcall : w.call ra = some s₀ := call_top hwrsp halign ra
  have hmem₀ : ∀ a, a ≠ top → s₀.mem a = s.mem a := fun a ha => Function.update_of_ne ha _ _
  have hrdi₀ : s₀.regs .rdi = .ptr (contextPtr next) := rfl
  obtain ⟨t,ht,hresumes,htmem⟩ := run_enter 56
    ([(.rbp,48),(.rsp,104),(.r15,0),(.r14,8),(.r13,16),(.r12,24),(.r9,32),(.r8,40),(.rsi,64),(.rax,72),
      (.rdx,80),(.rcx,88),(.rbx,96)]) hrdi₀
    (hsaved.congr (fun d hd => hmem₀ _ (hout next d hd).symm)) hp (by decide)
  refine ⟨t,?_,hresumes,fun a ha hap => ?_⟩
  · rw [switchOnly,State.invoke,hcall,Option.bind_some]
    exact ht
  · rw [htmem,Function.update_of_ne hap]
    exact hmem₀ a ha

end Switching

section Preparing
variable {s : Cpu} {k : Nat} {ret : Code} {rdi : Word Block Code}

theorem getSp_off (k : Nat) : OffRegisters (getSp k) := by
  intro j d hd he
  have hoffset : (getSp k).offset = d := (congrArg Addr.offset he).trans (Nat.zero_add d)
  have hle : REGISTERS_SIZE ≤ (REGISTERS_SIZE+STACK_SIZE-8)-(REGISTERS_SIZE+STACK_SIZE-8)%16 := by decide
  have hlt : (getSp k).offset < REGISTERS_SIZE := hoffset.symm ▸ hd
  exact Nat.not_lt.mpr hle hlt

theorem prepare_saved : Saved (prepare s k ret rdi).mem k (entry k ret rdi) := by
  have hsp : ∀ d < REGISTERS_SIZE, (contextPtr k).plus d ≠ getSp k := fun d hd => (getSp_off k k d hd).symm
  have hlt : ∀ d < REGISTERS_SIZE, ((contextPtr k).plus d).block = .context k ∧
      ((contextPtr k).plus d).offset < REGISTERS_SIZE := by
    intro d hd
    exact ⟨rfl,by rw [Addr.plus,contextPtr,Nat.zero_add]; exact hd⟩
  have hother : ∀ i j, i ≠ j → register k i ≠ register k j := by
    intro i j hij he
    exact hij (Nat.eq_of_mul_eq_mul_left (by decide) (Addr.plus_injective he))
  have hrspsp : getSp k ≠ register k RSP := getSp_off k k (8*RSP) (by decide)
  refine ⟨?_,?_,fun q hq => ?_⟩
  · simp only [prepare,fillRegisters]
    rw [Function.update_of_ne (hother _ _ (by decide)),Function.update_self,
      Function.update_of_ne hrspsp,Function.update_self]
    rfl
  · simp only [prepare,fillRegisters]
    rw [Function.update_of_ne (hother _ _ (by decide)),Function.update_of_ne (hother _ _ (by decide)),
      Function.update_self]
    rfl
  · have hrange : ∀ q ∈ layout, q.2 < REGISTERS_SIZE ∧ q.2 ≠ 8*RET ∧ q.2 ≠ 8*RSP ∧
        (q.2 = 8*RDI ↔ q.1 = .rdi) := by decide
    obtain ⟨hq2,hret,hrsp,hrdi⟩ := hrange q hq
    have hplus : ∀ i, q.2 ≠ 8*i → (contextPtr k).plus q.2 ≠ register k i :=
      fun i hi he => hi (Addr.plus_injective he)
    simp only [prepare,fillRegisters,entry]
    by_cases hr : q.1 = .rdi
    · rw [if_pos hr,hrdi.mpr hr]
      exact Function.update_self _ _ _
    · rw [if_neg hr,Function.update_of_ne (hplus _ (fun h => hr (hrdi.mp h))),
        Function.update_of_ne (hplus _ hret),Function.update_of_ne (hplus _ hrsp),
        Function.update_of_ne (hsp _ hq2),if_pos (hlt _ hq2)]

theorem prepare_other {a : Addr Block} (ha : ∀ d < REGISTERS_SIZE, a ≠ (contextPtr k).plus d)
    (hsp : a ≠ getSp k) : (prepare s k ret rdi).mem a = s.mem a := by
  have hout : ¬(a.block = .context k ∧ a.offset < REGISTERS_SIZE) := by
    rintro ⟨hb,ho⟩
    refine ha a.offset ho ?_
    rw [Addr.plus,contextPtr,Nat.zero_add,← hb]
  have hregister : ∀ i, 8*i < REGISTERS_SIZE → a ≠ register k i := fun i hi => ha (8*i) hi
  simp only [prepare,fillRegisters]
  rw [Function.update_of_ne (hregister RDI (by decide)),Function.update_of_ne (hregister RET (by decide)),
    Function.update_of_ne (hregister RSP (by decide)),Function.update_of_ne hsp,if_neg hout]

end Preparing

end Coroutines
end FluentNet
