import FluentNet.Coroutine.ContextSwitch
import FluentNet.Coroutine.Environment
set_option autoImplicit false

/-!
The coroutines together with the CPU that runs them: what `resume`, `yield` and the
end of `routineWrapper` do to registers and stacks.
-/

namespace FluentNet
namespace Coroutines
open X86 Runs

structure Machine where
  env : Environment
  cpu : Cpu
  /-- where the code of a coroutine was left last, or begins -/
  left : Nat → Option Point

def Environment.Live (s : Environment) (c k : Nat) : Prop :=
  ∃ co, s.coroutines c = some co ∧ (co.runtime = RUNNING ∨ c = Coroutines.main) ∧ co.context = some k

structure OnStack (c k : Nat) (a : Addr Block) : Prop where
  block : a.block = if c = main then .thread else .context k
  above : c ≠ main → REGISTERS_SIZE ≤ a.offset
  align : 8 ∣ a.offset

theorem OnStack.off {c k : Nat} {a : Addr Block} (h : OnStack c k a) : OffRegisters a := by
  intro j d hd he
  have hblock : a.block = .context j := congrArg Addr.block he
  have hoffset : a.offset = d := (congrArg Addr.offset he).trans (Nat.zero_add d)
  by_cases hc : c = main
  · rw [h.block,if_pos hc] at hblock
    cases hblock
  · have habove := h.above hc
    omega

def this (c : Nat) : Word Block Code := .ptr ⟨.coroutine c,0⟩

theorem entry_onStack {c k : Nat} (hc : c ≠ main) : OnStack c k (entry k .routineWrapper (this c)).top :=
  ⟨(if_neg hc).symm,fun _ => show REGISTERS_SIZE ≤ _-_ by decide,
    show 8 ∣ (REGISTERS_SIZE+STACK_SIZE-8)-(REGISTERS_SIZE+STACK_SIZE-8)%16 by decide⟩

namespace Machine

/-- Where the code will have been left that calls from in front of `ra`. -/
def leaving (s : Cpu) (ra : Code) : Option Point :=
  match s.regs .rsp with
  | .ptr a => some ⟨ra,⟨a.block,a.offset-8⟩,s.regs⟩
  | _ => none

def switchFrom (m : Machine) (previous next : Nat) (ra : Code) : Option Machine := do
  let env ← m.env.switchFrom previous next
  let cpu ← Coroutines.switchFrom m.cpu previous next ra
  some ⟨env,cpu,Function.update m.left m.env.control (leaving (withArguments m.cpu previous next) ra)⟩

def switchOnly (m : Machine) (next : Nat) (ra : Code) : Option Machine := do
  let env ← m.env.switchOnly next
  let cpu ← Coroutines.switchOnly m.cpu next ra
  some { m with env, cpu }

def begin (m : Machine) (c : Nat) (co : Coroutine) : Option Machine := do
  let env ← m.env.begin c co
  let k ← env.contextOf c
  some ⟨env,prepare m.cpu k .routineWrapper (this c),
    Function.update m.left c (some (entry k .routineWrapper (this c)))⟩

def resume (m : Machine) (c : Nat) (ra : Code) : Option Machine := do
  let co ← m.env.coroutines c
  if co.exit then some m
  else
    let m ← if co.running then some m else m.begin c co
    let previous ← m.env.cStack.head?
    let current ← m.env.contextOf previous
    let next ← m.env.contextOf c
    let env := { m.env with
      cStack := c :: m.env.cStack
      resumedBy := Function.update m.env.resumedBy c m.env.control }
    { m with env }.switchFrom current next ra

def yield (m : Machine) (ra : Code) : Option Machine :=
  match m.env.cStack with
  | c :: previous :: rest => do
      let next ← m.env.contextOf previous
      let popped : Machine := { m with env := { m.env with cStack := previous :: rest } }
      match m.env.contextOf c with
      | some current => popped.switchFrom current next ra
      | none => popped.switchOnly next ra
  | _ => none

def exit (m : Machine) (ra : Code) : Option Machine := do
  let co ← m.env.coroutines m.env.control
  let left := co.runtime ^^^ (EXIT ||| RUNNING)
  let env :=
    if m.env.recyable then (m.env.setCoroutine m.env.control (some ⟨left,none⟩)).recycle co.context
    else m.env.setCoroutine m.env.control (some { co with runtime := left })
  { m with env }.yield ra

inductive Label where
  /-- the code of the running coroutine -/
  | code (cpu : Cpu)
  | createCoroutine
  | resume (c : Nat) (ra : Code)
  | yield (ra : Code)
  | exit (ra : Code)
  | drop (c : Nat)

/-- The code that runs between two calls stays on its own stack, and out of what
`_registers` of any context holds. -/
structure Runs (m : Machine) (cpu : Cpu) : Prop where
  stack : ∃ k top, m.env.contextOf m.env.control = some k ∧ OnStack m.env.control k top ∧
    cpu.regs .rsp = .ptr (top.plus 8)
  registers : ∀ k, ∀ d < REGISTERS_SIZE, cpu.mem ((contextPtr k).plus d) = m.cpu.mem ((contextPtr k).plus d)

def Allowed (m : Machine) : Label → Prop
  | .code cpu => m.Runs cpu
  | .createCoroutine => m.env.Allowed .createCoroutine
  | .resume c _ => m.env.Allowed (.resume c)
  | .yield _ => m.env.Allowed .yield
  | .exit _ => m.env.Allowed .exit
  | .drop c => m.env.Allowed (.drop c)

def step (m : Machine) : Label → Option Machine
  | .code cpu => some { m with cpu }
  | .createCoroutine => some { m with env := m.env.createCoroutine }
  | .resume c ra => m.resume c ra
  | .yield ra => m.yield ra
  | .exit ra => m.exit ra
  | .drop c => some { m with env := m.env.setCoroutine c none }

structure Started (m : Machine) : Prop where
  env : m.env = Environment.init
  stack : ∃ top, OnStack main 0 top ∧ m.cpu.regs .rsp = .ptr (top.plus 8)

/-- Control passes to another coroutine. It goes on where it was left, or begins on a
stack of its own, and on the stacks nothing changes but the words that both return by. -/
structure Passes (m n : Machine) (p : Point) : Prop where
  resumes : Resumes n.cpu p
  goesOn : ∀ co, m.env.coroutines n.env.control = some co → n.env.control = main ∨ co.running →
    m.left n.env.control = some p
  begins : ∀ co, m.env.coroutines n.env.control = some co → ¬(n.env.control = main ∨ co.running) →
    ∃ k, n.env.contextOf n.env.control = some k ∧ p = entry k .routineWrapper (this n.env.control)
  frame : ∀ a, OffRegisters a → m.cpu.regs .rsp ≠ .ptr (a.plus 8) → a ≠ p.top → n.cpu.mem a = m.cpu.mem a

structure Kept (m : Machine) : Prop where
  stack : ∃ top, 8 ∣ top.offset ∧ OffRegisters top ∧ m.cpu.regs .rsp = .ptr (top.plus 8) ∧
    ∀ k, m.env.contextOf m.env.control = some k → OnStack m.env.control k top
  waiting : ∀ c k, c ≠ m.env.control → m.env.Live c k →
    ∃ p, m.left c = some p ∧ Saved m.cpu.mem k p ∧ OnStack c k p.top

structure Inv (m : Machine) : Prop extends m.Kept where
  env : m.env.Inv

structure Moves (m n : Machine) (p : Point) : Prop where
  coroutines : n.env.coroutines = m.env.coroutines
  resumes : Resumes n.cpu p
  others : ∀ c k q, c ≠ m.env.control → m.env.contextOf c = some k → m.left c = some q →
    Saved m.cpu.mem k q → n.left c = some q ∧ Saved n.cpu.mem k q
  itself : ∀ k, m.env.contextOf m.env.control = some k →
    ∃ q, n.left m.env.control = some q ∧ Saved n.cpu.mem k q ∧ OnStack m.env.control k q.top
  frame : ∀ a, OffRegisters a → m.cpu.regs .rsp ≠ .ptr (a.plus 8) → a ≠ p.top → n.cpu.mem a = m.cpu.mem a

section Switches
variable {m : Machine}

theorem Kept.switchFrom (hm : m.Kept) {current next : Nat} {t : Environment} {p : Point} (ra : Code)
    (ht : m.env.switchFrom current next = some t) (hcur : m.env.contextOf m.env.control = some current)
    (hplaced : ∀ c, c ≠ m.env.control → m.env.contextOf c ≠ some current) (hne : current ≠ next)
    (hsaved : Saved m.cpu.mem next p) (hp : 8 ∣ p.top.offset) (hout : OffRegisters p.top) :
    ∃ n, m.switchFrom current next ra = some n ∧ n.env = t ∧ Moves m n p := by
  obtain ⟨top,halign,hoff,hrsp,hstack⟩ := hm.stack
  obtain ⟨cpu,hcpu,hresumes,hself,hkeep⟩ := switchFrom_saves ra hne hrsp halign hoff hsaved hp hout
  have hleaving : leaving (withArguments m.cpu current next) ra =
      some ⟨ra,top,(withArguments m.cpu current next).regs⟩ := by
    have hrsp' : (withArguments m.cpu current next).regs .rsp = .ptr (top.plus 8) := hrsp
    simp only [leaving,hrsp',Addr.plus,Nat.add_sub_cancel]
  refine ⟨⟨t,cpu,Function.update m.left m.env.control (leaving (withArguments m.cpu current next) ra)⟩,?_,rfl,
    ⟨(Environment.switchOnly_effects ht).1,hresumes,?_,?_,?_⟩⟩
  · simp only [Machine.switchFrom,ht,hcpu,Option.bind_eq_bind,Option.bind_some]
  · intro c k q hc hk hq hs
    refine ⟨(Function.update_of_ne hc _ _).trans hq,hs.congr (fun d hd => ?_)⟩
    refine hkeep _ (fun e _ he => ?_) (hoff k d hd).symm (hout k d hd).symm
    -- the context is another one
    have hkc : k = current := Block.context.inj (congrArg Addr.block he)
    exact hplaced c hc (hkc ▸ hk)
  · intro k hk
    rw [hcur] at hk
    cases hk
    exact ⟨_,(Function.update_self _ _ _).trans hleaving,hself,hstack _ hcur⟩
  · intro a ha hatop hap
    refine hkeep a (ha current) ?_ hap
    rintro rfl
    exact hatop hrsp

theorem Kept.switchOnly (hm : m.Kept) {next : Nat} {t : Environment} {p : Point} (ra : Code)
    (ht : m.env.switchOnly next = some t) (hcur : m.env.contextOf m.env.control = none)
    (hsaved : Saved m.cpu.mem next p) (hp : 8 ∣ p.top.offset) (hout : OffRegisters p.top) :
    ∃ n, m.switchOnly next ra = some n ∧ n.env = t ∧ Moves m n p := by
  obtain ⟨top,halign,hoff,hrsp,_⟩ := hm.stack
  obtain ⟨cpu,hcpu,hresumes,hkeep⟩ := switchOnly_resumes ra hrsp halign hoff hsaved hp
  refine ⟨⟨t,cpu,m.left⟩,?_,rfl,⟨(Environment.switchOnly_effects ht).1,hresumes,?_,?_,?_⟩⟩
  · simp only [Machine.switchOnly,ht,hcpu,Option.bind_eq_bind,Option.bind_some]
  · exact fun c k q _ _ hq hs =>
      ⟨hq,hs.congr (fun d hd => hkeep _ (hoff k d hd).symm (hout k d hd).symm)⟩
  · intro k hk
    rw [hcur] at hk
    cases hk
  · intro a ha hatop hap
    refine hkeep a ?_ hap
    rintro rfl
    exact hatop hrsp

theorem Moves.inv {n : Machine} {p : Point} (h : Moves m n p) (hm : m.Kept) (hn : n.env.Inv)
    (next : Nat) (hnext : n.env.contextOf n.env.control = some next) (hp : OnStack n.env.control next p.top) :
    n.Inv := by
  refine ⟨⟨⟨p.top,hp.align,hp.off,h.resumes.rsp,fun k hk => ?_⟩,fun c k hc hlive => ?_⟩,hn⟩
  · rw [hnext] at hk
    cases hk
    exact hp
  · obtain ⟨co,hco,hrun,hk⟩ := hlive
    rw [h.coroutines] at hco
    have hctx : m.env.contextOf c = some k := Environment.contextOf_some hco hk
    by_cases hcc : c = m.env.control
    · subst hcc
      exact h.itself k hctx
    · obtain ⟨q,hq,hsaved,hstack⟩ := hm.waiting c k hcc ⟨co,hco,hrun,hk⟩
      obtain ⟨hleft,hkept⟩ := h.others c k q hcc hctx hq hsaved
      exact ⟨q,hleft,hkept,hstack⟩

end Switches

section Steps
variable {m : Machine}

theorem Kept.yield (hm : m.Kept) {t : Environment} {previous next : Nat} {rest : List Nat} (ra : Code)
    (hst : m.env.cStack = m.env.control :: previous :: rest) (hne : previous ≠ m.env.control)
    (hplaced : ∀ c d k, m.env.contextOf c = some k → m.env.contextOf d = some k → c = d)
    (hlive : m.env.Live previous next) (ht : m.env.yield = some t) (hcontrol : t.control = previous)
    (hinv : t.Inv) :
    ∃ n p, m.yield ra = some n ∧ n.env = t ∧ Moves m n p ∧ n.Inv ∧ m.left previous = some p := by
  obtain ⟨p,hleft,hsaved,hon⟩ := hm.waiting previous next hne hlive
  have hnext : m.env.contextOf previous = some next := by
    obtain ⟨co,hco,_,hk⟩ := hlive
    exact Environment.contextOf_some hco hk
  let popped : Machine := { m with env := { m.env with cStack := previous :: rest } }
  have hpopped : popped.Kept := ⟨hm.stack,hm.waiting⟩
  have hback : ∀ n : Machine, n.env = t → Moves popped n p → n.Inv := by
    intro n hn h
    subst hn
    refine h.inv hpopped hinv next ?_ (hcontrol ▸ hon)
    rw [hcontrol,Environment.contextOf,h.coroutines]
    exact hnext
  simp only [Environment.yield,hst,hnext,Option.bind_eq_bind,Option.bind_some] at ht
  simp only [Machine.yield,hst,hnext,Option.bind_eq_bind,Option.bind_some]
  cases hcur : m.env.contextOf m.env.control with
  | none =>
    simp only [hcur] at ht
    obtain ⟨n,hn,hnt,h⟩ := hpopped.switchOnly ra ht hcur hsaved hon.align hon.off
    exact ⟨n,p,hn,hnt,⟨h.coroutines,h.resumes,h.others,h.itself,h.frame⟩,hback n hnt h,hleft⟩
  | some current =>
    simp only [hcur] at ht
    have hapart : current ≠ next := by
      rintro rfl
      exact hne (hplaced _ _ _ hnext hcur)
    obtain ⟨n,hn,hnt,h⟩ := hpopped.switchFrom ra ht hcur (fun c hc hk => hc (hplaced _ _ _ hk hcur)) hapart
      hsaved hon.align hon.off
    exact ⟨n,p,hn,hnt,⟨h.coroutines,h.resumes,h.others,h.itself,h.frame⟩,hback n hnt h,hleft⟩

theorem contexts_apart {s : Environment} (h : Placement.Placed s.holds) (c d k : Nat)
    (hc : s.contextOf c = some k) (hd : s.contextOf d = some k) : c = d :=
  Sum.inl.inj (h (.inl c) (.inl d) k hc hd)

theorem waiting_live {s : Environment} (hs : s.Inv) (previous : Nat) (hp : previous ∈ s.cStack.tail) :
    ∃ k, s.Live previous k := by
  have hlive : ∃ co, s.coroutines previous = some co ∧ (co.runtime = RUNNING ∨ previous = Coroutines.main) := by
    rcases hs.waiting previous hp with rfl | ⟨co,hco,hr⟩
    · obtain ⟨co,hco,_⟩ := hs.main
      exact ⟨co,hco,.inr rfl⟩
    · exact ⟨co,hco,.inl hr⟩
  obtain ⟨co,hco,hr⟩ := hlive
  obtain ⟨k,hk,_⟩ := hs.owns previous co hco hr
  exact ⟨k,co,hco,hr,hk⟩

theorem live_goesOn {s : Environment} (hs : s.Inv) {c k : Nat} (hlive : s.Live c k) {co : Coroutine}
    (hco : s.coroutines c = some co) : c = main ∨ co.running := by
  obtain ⟨co',hco',hr,_⟩ := hlive
  rw [hco] at hco'
  cases hco'
  exact hr.symm.imp_right (Environment.running_iff (hs.runtime _ _ hco)).1.mpr

theorem Inv.yield (hm : m.Inv) (hc : m.env.control ≠ Coroutines.main) (ra : Code) :
    ∃ n p, m.yield ra = some n ∧ m.env.yield = some n.env ∧ n.Inv ∧ Passes m n p := by
  obtain ⟨previous,rest,hst,hne,hby⟩ := hm.env.toCore.stack hc
  obtain ⟨t,_,ht,hinv,hcontrol,_⟩ := hm.env.toCore.yield hc
  obtain ⟨next,hlive⟩ := waiting_live hm.env previous (by rw [hst]; exact List.mem_cons_self)
  have hprevious : t.control = previous := hcontrol.trans hby
  obtain ⟨n,p,hn,hnt,h,hninv,hleft⟩ := hm.toKept.yield ra hst hne (contexts_apart hm.env.placed) hlive ht
    hprevious hinv
  subst hnt
  refine ⟨n,p,hn,ht,hninv,h.resumes,fun _ _ _ => hprevious ▸ hleft,fun co hco hnot => ?_,h.frame⟩
  rw [hprevious] at hco hnot
  exact absurd (live_goesOn hm.env hlive hco) hnot

theorem Inv.exit (hm : m.Inv) (hc : m.env.control ≠ Coroutines.main) (ra : Code) :
    ∃ n p, m.exit ra = some n ∧ m.env.exit = some n.env ∧ n.Inv ∧ Passes m n p := by
  obtain ⟨previous,rest,hst,hne,hby⟩ := hm.env.toCore.stack hc
  obtain ⟨t,_,ht,hinv,hcontrol,_⟩ := hm.env.exit hc
  obtain ⟨co,hco,_⟩ := hm.env.running.resolve_left hc
  obtain ⟨next,hlive⟩ := waiting_live hm.env previous (by rw [hst]; exact List.mem_cons_self)
  have hprevious : t.control = previous := hcontrol.trans hby
  -- what the rest of `routineWrapper` does is a `yield`, whatever was recycled
  have hgo : ∀ u : Environment, u.yield = some t → u.control = m.env.control → u.cStack = m.env.cStack →
      (∀ c, c ≠ m.env.control → u.coroutines c = m.env.coroutines c) →
      (∀ k, u.contextOf m.env.control = some k → m.env.contextOf m.env.control = some k) →
      ∃ n p, ({ m with env := u } : Machine).yield ra = some n ∧ n.env = t ∧ n.Inv ∧ Passes m n p := by
    intro u hu huc hust hother hself
    have hcontext : ∀ c k, u.contextOf c = some k → m.env.contextOf c = some k := by
      intro c k hk
      by_cases hcc : c = m.env.control
      · subst hcc
        exact hself k hk
      · rwa [Environment.contextOf,hother c hcc] at hk
    have hlives : ∀ c k, c ≠ m.env.control → (u.Live c k ↔ m.env.Live c k) := by
      intro c k hcc
      rw [Environment.Live,Environment.Live,hother c hcc]
    have hkept : Kept { m with env := u } := by
      obtain ⟨top,halign,hoff,hrsp,hon⟩ := hm.stack
      refine ⟨⟨top,halign,hoff,hrsp,fun k hk => ?_⟩,fun c k hcc hl => ?_⟩
      · change OnStack u.control k top
        change u.contextOf u.control = some k at hk
        rw [huc] at hk ⊢
        exact hon k (hself k hk)
      · have hcc' : c ≠ m.env.control := huc ▸ hcc
        exact hm.waiting c k hcc' ((hlives c k hcc').mp hl)
    have hustack : u.cStack = u.control :: previous :: rest := by
      rw [huc,hust]
      exact hst
    obtain ⟨n,p,hn,hnt,h,hninv,hleft⟩ := hkept.yield ra hustack (huc.symm ▸ hne)
      (fun c d k hck hdk => contexts_apart hm.env.placed c d k (hcontext c k hck) (hcontext d k hdk))
      ((hlives previous next hne).mpr hlive) hu hprevious hinv
    subst hnt
    refine ⟨n,p,hn,rfl,hninv,h.resumes,fun _ _ _ => hprevious ▸ hleft,fun co hco hnot => ?_,h.frame⟩
    rw [hprevious] at hco hnot
    exact absurd (live_goesOn hm.env hlive hco) hnot
  simp only [Environment.exit,hco,Option.bind_eq_bind,Option.bind_some] at ht
  simp only [Machine.exit,Environment.exit,hco,Option.bind_eq_bind,Option.bind_some]
  by_cases hrec : m.env.recyable
  · rw [if_pos hrec] at ht ⊢
    rw [if_pos hrec]
    obtain ⟨n,p,hn,hnt,hninv,hpass⟩ := hgo _ ht rfl rfl (fun c hcc => Function.update_of_ne hcc _ _) (by
      intro k hk
      simp [Environment.contextOf,Environment.setCoroutine,Environment.recycle] at hk)
    exact ⟨n,p,hn,hnt ▸ ht,hninv,hpass⟩
  · rw [if_neg hrec] at ht ⊢
    rw [if_neg hrec]
    obtain ⟨n,p,hn,hnt,hninv,hpass⟩ := hgo _ ht rfl rfl (fun c hcc => Function.update_of_ne hcc _ _) (by
      intro k hk
      simp only [Environment.contextOf,Environment.setCoroutine,Function.update_self] at hk
      exact Environment.contextOf_some hco hk)
    exact ⟨n,p,hn,hnt ▸ ht,hninv,hpass⟩

theorem Inv.begin (hm : m.Inv) {c : Nat} {co : Coroutine} (hco : m.env.coroutines c = some co)
    (hr : co.runtime = 0) (hout : c ∉ m.env.cStack) :
    ∃ n k, m.begin c co = some n ∧ m.env.begin c co = some n.env ∧ n.Inv ∧
      n.env.cStack = m.env.cStack ∧ n.env.control = m.env.control ∧ n.env.coroutines c = some ⟨RUNNING,some k⟩ ∧
      n.left c = some (entry k .routineWrapper (this c)) ∧ n.cpu.regs = m.cpu.regs ∧
      ∀ a, OffRegisters a → a ≠ getSp k → n.cpu.mem a = m.cpu.mem a := by
  obtain ⟨u,hu,hinv,hst,hcontrol,k,hk⟩ := hm.env.begin hco hr hout
  obtain ⟨hne,hmain⟩ := hm.env.off_stack hout
  have hother : ∀ d, d ≠ c → u.coroutines d = m.env.coroutines d := (Environment.begin_effects hu).1
  have hctx : u.contextOf c = some k := Environment.contextOf_some hk rfl
  refine ⟨⟨u,prepare m.cpu k .routineWrapper (this c),
    Function.update m.left c (some (entry k .routineWrapper (this c)))⟩,k,?_,hu,⟨⟨?_,?_⟩,hinv⟩,hst,hcontrol,hk,
    Function.update_self _ _ _,rfl,fun a ha hsp => prepare_other (ha k) hsp⟩
  · simp only [Machine.begin,hu,hctx,Option.bind_eq_bind,Option.bind_some]
  · obtain ⟨top,halign,hoff,hrsp,hon⟩ := hm.stack
    refine ⟨top,halign,hoff,hrsp,fun j hj => ?_⟩
    change u.contextOf u.control = some j at hj
    rw [hcontrol,Environment.contextOf,hother _ hne.symm] at hj
    exact hcontrol.symm ▸ hon j hj
  · intro d j hd hlive
    by_cases hdc : d = c
    · subst hdc
      obtain ⟨co',hco',_,hj⟩ := hlive
      change u.coroutines d = some co' at hco'
      rw [hk] at hco'
      cases hco'
      cases hj
      exact ⟨_,Function.update_self _ _ _,prepare_saved,entry_onStack hmain⟩
    · have hjk : j ≠ k := by
        rintro rfl
        obtain ⟨co',hco',_,hj⟩ := hlive
        exact hdc (contexts_apart hinv.placed d c j (Environment.contextOf_some hco' hj) hctx)
      have hlive' : m.env.Live d j := by
        obtain ⟨co',hco',hrun,hj⟩ := hlive
        exact ⟨co',(hother d hdc).symm.trans hco',hrun,hj⟩
      obtain ⟨p,hp,hsaved,hstack⟩ := hm.waiting d j (hcontrol ▸ hd) hlive'
      refine ⟨p,(Function.update_of_ne hdc _ _).trans hp,hsaved.congr (fun e he => ?_),hstack⟩
      refine prepare_other (fun f _ heq => hjk ?_) (getSp_off k j e he).symm
      exact Block.context.inj (congrArg Addr.block heq)

theorem Inv.entered (hm : m.Inv) {c k : Nat} (hco : m.env.coroutines c = some ⟨RUNNING,some k⟩)
    (hout : c ∉ m.env.cStack) (ra : Code) {current : Nat} (hcur : m.env.contextOf m.env.control = some current) :
    let env := { m.env with
      cStack := c :: m.env.cStack
      resumedBy := Function.update m.env.resumedBy c m.env.control }
    ∃ n p, ({ m with env } : Machine).switchFrom current k ra = some n ∧
      env.switchFrom current k = some n.env ∧ n.Inv ∧ n.env.control = c ∧ m.left c = some p ∧ Moves m n p := by
  obtain ⟨hne,_⟩ := hm.env.off_stack hout
  have hctx : m.env.contextOf c = some k := Environment.contextOf_some hco rfl
  obtain ⟨p,hleft,hsaved,hon⟩ := hm.waiting c k hne ⟨_,hco,.inl rfl,rfl⟩
  obtain ⟨t,ht,hinv⟩ := hm.env.entered hco hout hcur
  have hapart := contexts_apart hm.env.placed
  have hpushed : Kept { m with env := { m.env with
      cStack := c :: m.env.cStack
      resumedBy := Function.update m.env.resumedBy c m.env.control } } := ⟨hm.stack,hm.waiting⟩
  obtain ⟨n,hn,hnt,h⟩ := hpushed.switchFrom ra ht hcur (fun d hd hk => hd (hapart _ _ _ hk hcur))
    (by rintro rfl; exact hne (hapart _ _ _ hctx hcur)) hsaved hon.align hon.off
  have hcontrol : n.env.control = c := by
    have hgoes := hinv.head
    rw [(Environment.switchOnly_effects ht).2.1] at hgoes
    exact hnt ▸ (Option.some.inj hgoes).symm
  have hback : n.Inv := by
    refine h.inv hpushed (hnt ▸ hinv) k ?_ (hcontrol ▸ hon)
    rw [hcontrol,Environment.contextOf,h.coroutines]
    exact hctx
  exact ⟨n,p,hn,hnt ▸ ht,hback,hcontrol,hleft,⟨h.coroutines,h.resumes,h.others,h.itself,h.frame⟩⟩

theorem Inv.resume (hm : m.Inv) {c : Nat} (hc : (m.env.coroutines c).isSome) (hout : c ∉ m.env.cStack)
    (ra : Code) : ∃ n, m.resume c ra = some n ∧ m.env.resume c = some n.env ∧ n.Inv ∧
      (n = m ∨ n.env.control = c ∧ ∃ p, Passes m n p) := by
  obtain ⟨co,hco⟩ := Option.isSome_iff_exists.mp hc
  obtain ⟨hrun,hexit⟩ := Environment.running_iff (hm.env.runtime c co hco)
  obtain ⟨_,hmain⟩ := hm.env.off_stack hout
  simp only [Machine.resume,Environment.resume,hco,Option.bind_eq_bind,Option.bind_some]
  by_cases he : co.exit
  · rw [if_pos he,if_pos he]
    exact ⟨m,rfl,rfl,hm,.inl rfl⟩
  rw [if_neg he,if_neg he]
  by_cases hr : co.running
  · -- it goes on where it was left
    obtain ⟨runtime,context⟩ := co
    have hr' : runtime = RUNNING := hrun.mp hr
    subst hr'
    obtain ⟨k,hk,_⟩ := hm.env.owns c _ hco (.inl rfl)
    dsimp only at hk
    subst hk
    obtain ⟨current,hcur⟩ := hm.env.current
    obtain ⟨n,p,hn,hnt,hinv,hcontrol,hleft,h⟩ := hm.entered hco hout ra hcur
    rw [if_pos hr,if_pos hr]
    simp only [Option.bind_some,hm.env.head,hcur,Environment.contextOf_some hco rfl]
    refine ⟨n,hn,hnt,hinv,.inr ⟨hcontrol,p,h.resumes,fun _ _ _ => hcontrol ▸ hleft,fun co' hco' hnot => ?_,h.frame⟩⟩
    rw [hcontrol,hco] at hco'
    cases hco'
    exact absurd (.inr hr) hnot
  · -- it gets a context, and begins
    have h0 : co.runtime = 0 := by
      rcases hm.env.runtime c co hco with h | h | h
      · exact h
      · exact absurd (hrun.mpr h) hr
      · exact absurd (hexit.mpr h) he
    obtain ⟨u,k,hu,huenv,huinv,hust,hucontrol,huco,huleft,huregs,humem⟩ := hm.begin hco h0 hout
    obtain ⟨current,hcur⟩ := huinv.env.current
    obtain ⟨n,p,hn,hnt,hinv,hcontrol,hleft,h⟩ := huinv.entered huco (by rw [hust]; exact hout) ra hcur
    have hp : p = entry k .routineWrapper (this c) := Option.some.inj (hleft.symm.trans huleft)
    subst hp
    rw [if_neg hr,if_neg hr,hu,huenv]
    simp only [Option.bind_some,huinv.env.head,hcur,Environment.contextOf_some huco rfl]
    refine ⟨n,hn,hnt,hinv,.inr ⟨hcontrol,_,h.resumes,fun co' hco' hgo => ?_,fun co' _ _ => ?_,fun a ha hatop hap => ?_⟩⟩
    · rw [hcontrol] at hco' hgo
      rw [hco] at hco'
      cases hco'
      exact absurd hgo (not_or.mpr ⟨hmain,hr⟩)
    · refine ⟨k,?_,by rw [hcontrol]⟩
      rw [hcontrol,Environment.contextOf,h.coroutines]
      exact Environment.contextOf_some huco rfl
    · have hsame : n.cpu.mem a = u.cpu.mem a := h.frame a ha (fun hrsp => hatop (huregs ▸ hrsp)) hap
      exact hsame.trans (humem a ha hap)

theorem Inv.code (hm : m.Inv) {cpu : Cpu} (h : m.Runs cpu) : Inv { m with cpu } := by
  obtain ⟨k,top,hk,hon,hrsp⟩ := h.stack
  refine ⟨⟨⟨top,hon.align,hon.off,hrsp,fun j hj => ?_⟩,fun c j hc hlive => ?_⟩,hm.env⟩
  · change m.env.contextOf m.env.control = some j at hj
    rw [hk] at hj
    cases hj
    exact hon
  · obtain ⟨p,hp,hsaved,hstack⟩ := hm.waiting c j hc hlive
    exact ⟨p,hp,hsaved.congr (h.registers j),hstack⟩

theorem Inv.replaced (hm : m.Inv) {env : Environment} {c : Nat} (henv : env.Inv) (hout : c ∉ m.env.cStack)
    (hcontrol : env.control = m.env.control) (hother : ∀ d, d ≠ c → env.coroutines d = m.env.coroutines d)
    (hbare : env.contextOf c = none) : Inv { m with env } := by
  obtain ⟨hne,_⟩ := hm.env.off_stack hout
  obtain ⟨top,halign,hoff,hrsp,hon⟩ := hm.stack
  refine ⟨⟨⟨top,halign,hoff,hrsp,fun j hj => ?_⟩,fun d j hd hlive => ?_⟩,henv⟩
  · change env.contextOf env.control = some j at hj
    rw [hcontrol,Environment.contextOf,hother _ hne.symm] at hj
    exact hcontrol.symm ▸ hon j hj
  · obtain ⟨co,hco,hrun,hj⟩ := hlive
    have hdc : d ≠ c := by
      rintro rfl
      have hctx : env.contextOf d = some j := Environment.contextOf_some hco hj
      rw [hbare] at hctx
      cases hctx
    exact hm.waiting d j (hcontrol ▸ hd) ⟨co,(hother d hdc).symm.trans hco,hrun,hj⟩

end Steps

section Running
variable {m n : Machine}

def Label.call : Label → Option Environment.Label
  | .code _ => none
  | .createCoroutine => some .createCoroutine
  | .resume c _ => some (.resume c)
  | .yield _ => some .yield
  | .exit _ => some .exit
  | .drop c => some (.drop c)

/-- The step is defined, it is the coroutines' own step, and when control passes the
CPU goes on where it should. -/
def Follows (m n : Machine) (l : Label) : Prop :=
  (match l.call with
    | some e => m.env.Allowed e ∧ m.env.step e = some n.env
    | none => n.env = m.env) ∧
  (n.env.control ≠ m.env.control → ∃ p, Passes m n p)

theorem Inv.step (hm : m.Inv) {l : Label} (hl : m.Allowed l) :
    ∃ n, m.step l = some n ∧ n.Inv ∧ Follows m n l := by
  cases l with
  | code cpu => exact ⟨_,rfl,hm.code hl,rfl,fun h => absurd rfl h⟩
  | createCoroutine =>
    have hfree : m.env.coroutines m.env.created = none := hm.env.unborn _ (Nat.le_refl _)
    have hout : m.env.created ∉ m.env.cStack := by
      intro hin
      obtain ⟨co,hco⟩ := hm.env.alive hin
      rw [hfree] at hco
      cases hco
    refine ⟨_,rfl,hm.replaced hm.env.createCoroutine hout rfl (fun d hd => Function.update_of_ne hd _ _) ?_,
      ⟨hl,rfl⟩,fun h => absurd rfl h⟩
    simp [Environment.contextOf,Environment.createCoroutine,Environment.setCoroutine]
  | resume c ra =>
    obtain ⟨n,hn,henv,hinv,hgo⟩ := hm.resume hl.1 hl.2 ra
    refine ⟨n,hn,hinv,⟨hl,henv⟩,fun hne => ?_⟩
    rcases hgo with rfl | ⟨_,hp⟩
    · exact absurd rfl hne
    · exact hp
  | yield ra =>
    obtain ⟨n,p,hn,henv,hinv,hp⟩ := hm.yield hl ra
    exact ⟨n,hn,hinv,⟨hl,henv⟩,fun _ => ⟨p,hp⟩⟩
  | exit ra =>
    obtain ⟨n,p,hn,henv,hinv,hp⟩ := hm.exit hl ra
    exact ⟨n,hn,hinv,⟨hl,henv⟩,fun _ => ⟨p,hp⟩⟩
  | drop c =>
    refine ⟨_,rfl,hm.replaced (hm.env.replaced hl.2 (.inl rfl) (.inl rfl)) hl.2 rfl
      (fun d hd => Function.update_of_ne hd _ _) ?_,⟨hl,rfl⟩,fun h => absurd rfl h⟩
    simp [Environment.contextOf,Environment.setCoroutine]

theorem Started.inv (h : m.Started) : m.Inv := by
  obtain ⟨top,hon,hrsp⟩ := h.stack
  refine ⟨⟨⟨top,hon.align,hon.off,hrsp,fun k hk => ?_⟩,fun c k hc hlive => ?_⟩,h.env ▸ Environment.Inv.initial⟩
  · rw [h.env] at hk ⊢
    cases hk
    exact hon
  · -- there is nobody but the thread's own
    obtain ⟨co,hco,_⟩ := hlive
    rw [h.env] at hc hco
    have hmain : c ≠ Coroutines.main := hc
    simp [Environment.init,Function.update_of_ne hmain] at hco

theorem Inv.reached (h : m.Started) (hrun : Path Machine.step Allowed m n) :
    n.Inv ∧ Path Environment.step Environment.Allowed Environment.init n.env := by
  have hstart : Path Environment.step Environment.Allowed Environment.init m.env := by
    rw [h.env]
    exact .refl
  refine hrun.keeps (I := fun u => u.Inv ∧ Path Environment.step Environment.Allowed Environment.init u.env)
    (fun u l v hl hv hu => ?_) ⟨h.inv,hstart⟩
  obtain ⟨w,hw,hinv,hcall,_⟩ := hu.1.step hl
  rw [hv] at hw
  cases hw
  refine ⟨hinv,?_⟩
  cases he : l.call with
  | none =>
    simp only [he] at hcall
    exact hcall ▸ hu.2
  | some e =>
    simp only [he] at hcall
    exact hu.2.next hcall.1 hcall.2

/-- In every run the machine does what the coroutines' own steps say, no step faults,
and whoever gets control goes on where it was left, with its registers and its stack. -/
theorem switch_refines (h : m.Started) (hrun : Path Machine.step Allowed m n) :
    Path Environment.step Environment.Allowed Environment.init n.env ∧
      ∀ l, n.Allowed l → ∃ t, n.step l = some t ∧ Follows n t l := by
  obtain ⟨hinv,hpath⟩ := Inv.reached h hrun
  refine ⟨hpath,fun l hl => ?_⟩
  obtain ⟨t,ht,_,hfollows⟩ := hinv.step hl
  exact ⟨t,ht,hfollows⟩

def fresh : Machine :=
  ⟨Environment.init,⟨fun r => if r = .rsp then .ptr ⟨.thread,4096⟩ else .int 0,fun _ => .int 0,.after 0⟩,
    fun _ => none⟩

theorem fresh_started : fresh.Started :=
  ⟨rfl,⟨.thread,4088⟩,⟨rfl,fun h => absurd rfl h,by decide⟩,rfl⟩

theorem switch_refines_fresh : ∃ m₁ m₂, { fresh with env := fresh.env.createCoroutine }.step (.resume 1 (.after 1)) =
      some m₁ ∧ m₁.env.control = 1 ∧ m₁.step (.yield (.after 2)) = some m₂ ∧ m₂.env.control = main ∧
    Path Environment.step Environment.Allowed Environment.init m₂.env ∧
    (∀ l, m₂.Allowed l → ∃ t, m₂.step l = some t ∧ Follows m₂ t l) ∧ m₂.Allowed (.resume 1 (.after 3)) := by
  let m : Machine := { fresh with env := fresh.env.createCoroutine }
  have hrun : Path Machine.step Allowed fresh m := Path.next .refl (l := .createCoroutine) trivial rfl
  have hl : m.Allowed (.resume 1 (.after 1)) := show Environment.Allowed _ (.resume 1) by decide
  obtain ⟨m₁,h₁,_⟩ := (switch_refines fresh_started hrun).2 _ hl
  have hone : (m.step (.resume 1 (.after 1))).map (fun m => (m.env.control,decide (m.env.Allowed .yield))) =
      some (1,true) := by decide +kernel
  rw [h₁] at hone
  obtain ⟨hcontrol,hyield⟩ := Prod.mk.inj (Option.some.inj hone)
  have hl₁ : m₁.Allowed (.yield (.after 2)) := show m₁.env.Allowed .yield from of_decide_eq_true hyield
  have hrun₁ := hrun.next hl h₁
  obtain ⟨m₂,h₂,_⟩ := (switch_refines fresh_started hrun₁).2 _ hl₁
  have hmain : ((m.step (.resume 1 (.after 1))).bind (fun m => m.step (.yield (.after 2)))).map
      (fun m => (m.env.control,decide (m.env.Allowed (.resume 1)))) = some (main,true) := by decide +kernel
  rw [h₁,Option.bind_some,h₂] at hmain
  obtain ⟨hback,hresume⟩ := Prod.mk.inj (Option.some.inj hmain)
  obtain ⟨hpath,hsteps⟩ := switch_refines fresh_started (hrun₁.next hl₁ h₂)
  exact ⟨m₁,m₂,h₁,hcontrol,h₂,hback,hpath,hsteps,
    show m₂.env.Allowed (.resume 1) from of_decide_eq_true hresume⟩

end Running

section Returning
variable {m n : Machine}

theorem begin_left {c : Nat} {co : Coroutine} (h : m.begin c co = some n) :
    n.env.control = m.env.control ∧ n.cpu.regs = m.cpu.regs ∧ ∀ d, d ≠ c → n.left d = m.left d := by
  simp only [Machine.begin,Option.bind_eq_bind] at h
  obtain ⟨env,henv,h⟩ := Option.bind_eq_some_iff.mp h
  obtain ⟨k,_,h⟩ := Option.bind_eq_some_iff.mp h
  cases h
  simp only [Environment.begin] at henv
  obtain ⟨_,_,rfl⟩ := Option.map_eq_some_iff.mp henv
  refine ⟨?_,rfl,fun d hd => Function.update_of_ne hd _ _⟩
  split
  · rfl
  · rfl

theorem switchFrom_left {previous next : Nat} {ra : Code} (h : m.switchFrom previous next ra = some n) :
    n.left m.env.control = leaving (withArguments m.cpu previous next) ra ∧
      ∀ d, d ≠ m.env.control → n.left d = m.left d := by
  simp only [Machine.switchFrom,Option.bind_eq_bind] at h
  obtain ⟨env,_,h⟩ := Option.bind_eq_some_iff.mp h
  obtain ⟨cpu,_,h⟩ := Option.bind_eq_some_iff.mp h
  cases h
  exact ⟨Function.update_self _ _ _,fun d hd => Function.update_of_ne hd _ _⟩

theorem yield_left {ra : Code} (h : m.yield ra = some n) :
    (∀ k, m.env.contextOf m.env.control = some k → m.env.cStack.head? = some m.env.control →
      ∃ next, n.left m.env.control = leaving (withArguments m.cpu k next) ra) ∧
    ∀ d, d ≠ m.env.control → n.left d = m.left d := by
  unfold Machine.yield at h
  split at h
  · rename_i c previous rest hst
    simp only [Option.bind_eq_bind] at h
    obtain ⟨next,_,h⟩ := Option.bind_eq_some_iff.mp h
    split at h
    · rename_i current hcur
      obtain ⟨hself,hother⟩ := switchFrom_left h
      refine ⟨fun k hk hhead => ⟨next,?_⟩,hother⟩
      rw [hst] at hhead
      cases hhead
      rw [hcur] at hk
      cases hk
      exact hself
    · rename_i hcur
      simp only [Machine.switchOnly,Option.bind_eq_bind] at h
      obtain ⟨env,_,h⟩ := Option.bind_eq_some_iff.mp h
      obtain ⟨cpu,_,h⟩ := Option.bind_eq_some_iff.mp h
      cases h
      refine ⟨fun k hk hhead => ?_,fun _ _ => rfl⟩
      rw [hst] at hhead
      cases hhead
      rw [hcur] at hk
      cases hk
  · cases h

theorem exit_left {ra : Code} (h : m.exit ra = some n) : ∀ d, d ≠ m.env.control → n.left d = m.left d := by
  simp only [Machine.exit,Option.bind_eq_bind] at h
  obtain ⟨co,_,h⟩ := Option.bind_eq_some_iff.mp h
  have hcontrol : (if m.env.recyable then
      (m.env.setCoroutine m.env.control (some ⟨co.runtime ^^^ (EXIT ||| RUNNING),none⟩)).recycle co.context
    else m.env.setCoroutine m.env.control (some { co with runtime := co.runtime ^^^ (EXIT ||| RUNNING) })).control =
      m.env.control := by
    split
    · rfl
    · rfl
  intro d hd
  exact (yield_left h).2 d (fun he => hd (he.trans hcontrol))

theorem resume_left {c : Nat} {ra : Code} (h : m.resume c ra = some n) :
    (∀ d, d ≠ c → d ≠ m.env.control → n.left d = m.left d) ∧
    (n.env.control ≠ m.env.control →
      ∃ k next, n.left m.env.control = leaving (withArguments m.cpu k next) ra) := by
  -- what comes after a context was found
  have hgo : ∀ u : Machine, u.env.control = m.env.control → u.cpu.regs = m.cpu.regs →
      (∀ d, d ≠ c → u.left d = m.left d) → (do
        let previous ← u.env.cStack.head?
        let current ← u.env.contextOf previous
        let next ← u.env.contextOf c
        let env := { u.env with
          cStack := c :: u.env.cStack
          resumedBy := Function.update u.env.resumedBy c u.env.control }
        ({ u with env } : Machine).switchFrom current next ra) = some n →
      (∀ d, d ≠ c → d ≠ m.env.control → n.left d = m.left d) ∧
        ∃ k next, n.left m.env.control = leaving (withArguments m.cpu k next) ra := by
    intro u hcontrol hregs hleft hu
    obtain ⟨_,_,hu⟩ := Option.bind_eq_some_iff.mp hu
    obtain ⟨current,_,hu⟩ := Option.bind_eq_some_iff.mp hu
    obtain ⟨next,_,hu⟩ := Option.bind_eq_some_iff.mp hu
    obtain ⟨hself,hother⟩ := switchFrom_left hu
    have hsame : leaving (withArguments u.cpu current next) ra = leaving (withArguments m.cpu current next) ra := by
      simp only [leaving,withArguments,State.setReg,hregs]
    exact ⟨fun d hdc hd => (hother d (fun he => hd (he.trans hcontrol))).trans (hleft d hdc),
      current,next,(hcontrol ▸ hself).trans hsame⟩
  simp only [Machine.resume,Option.bind_eq_bind] at h
  obtain ⟨co,_,h⟩ := Option.bind_eq_some_iff.mp h
  split at h
  · cases h
    exact ⟨fun _ _ _ => rfl,fun hne => absurd rfl hne⟩
  split at h
  · obtain ⟨hleft,hself⟩ := hgo m rfl rfl (fun _ _ => rfl) h
    exact ⟨hleft,fun _ => hself⟩
  · obtain ⟨u,hu,h⟩ := Option.bind_eq_some_iff.mp h
    obtain ⟨hcontrol,hregs,hkeep⟩ := begin_left hu
    obtain ⟨hleft,hself⟩ := hgo u hcontrol hregs hkeep h
    exact ⟨hleft,fun _ => hself⟩

theorem step_waiting (hm : m.Inv) {l : Label} (hl : m.Allowed l) (h : m.step l = some n) {c : Nat}
    (hc : c ≠ m.env.control) (hborn : c < m.env.created) (hnot : ∀ ra, l ≠ .resume c ra) :
    c < n.env.created ∧ n.left c = m.left c ∧
      (n.env.coroutines c = m.env.coroutines c ∨ n.env.coroutines c = none) := by
  obtain ⟨t,ht,_,hcall,_⟩ := hm.step hl
  rw [h] at ht
  cases ht
  cases l with
  | code cpu =>
    cases h
    exact ⟨hborn,rfl,.inl rfl⟩
  | createCoroutine =>
    cases h
    exact ⟨Nat.lt_succ_of_lt hborn,rfl,.inl (Function.update_of_ne (Nat.ne_of_lt hborn) _ _)⟩
  | resume d ra =>
    have hd : c ≠ d := fun he => hnot ra (he ▸ rfl)
    have hleft := (resume_left h).1 c hd hc
    have henv : m.env.resume d = some n.env := hcall.2
    obtain ⟨co,hco⟩ := Option.isSome_iff_exists.mp hl.1
    by_cases he : co.exit
    · simp only [Environment.resume,hco,Option.bind_eq_bind,Option.bind_some,if_pos he,Option.some.injEq] at henv
      rw [← henv]
      exact ⟨hborn,hleft,.inl rfl⟩
    · obtain ⟨hother,_,hcreated⟩ := Environment.resume_effects hco he henv
      exact ⟨hcreated ▸ hborn,hleft,.inl (hother c hd)⟩
  | yield ra =>
    obtain ⟨hother,_,hcreated⟩ := Environment.yield_effects (t := n.env) hcall.2
    exact ⟨hcreated ▸ hborn,(yield_left h).2 c hc,.inl (congrFun hother c)⟩
  | exit ra =>
    obtain ⟨co,hco,_⟩ := hm.env.running.resolve_left hl
    obtain ⟨hother,_,_,hcreated⟩ := Environment.exit_effects (t := n.env) hco hcall.2
    exact ⟨hcreated ▸ hborn,exit_left h c hc,.inl (hother c hc)⟩
  | drop d =>
    cases h
    by_cases hd : c = d
    · subst hd
      exact ⟨hborn,rfl,.inr (Function.update_self _ _ _)⟩
    · exact ⟨hborn,rfl,.inl (Function.update_of_ne hd _ _)⟩

structure Waits (c : Nat) (p : Point) (m : Machine) : Prop where
  inv : m.Inv
  born : c < m.env.created
  left : m.left c = some p
  goesOn : ∀ co, m.env.coroutines c = some co → c = main ∨ co.running

def Label.returnsTo : Label → Option Code
  | .resume _ ra | .yield ra => some ra
  | _ => none

def Away (c : Nat) (m : Machine) (l : Label) : Prop := m.Allowed l ∧ m.env.control ≠ c

theorem Waits.step {c : Nat} {p : Point} (hw : Waits c p m) {l : Label} (hl : Away c m l) (h : m.step l = some n) :
    (n.env.control = c ∧ Resumes n.cpu p) ∨ (n.env.control ≠ c ∧ Waits c p n) := by
  obtain ⟨t,ht,hinv,_,hpass⟩ := hw.inv.step hl.1
  rw [h] at ht
  cases ht
  by_cases hback : n.env.control = c
  · refine .inl ⟨hback,?_⟩
    obtain ⟨q,hq⟩ := hpass (hback ▸ hl.2.symm)
    have hgoes : ∃ co, m.env.coroutines c = some co := by
      -- nobody comes back who has been dropped
      cases hco : m.env.coroutines c with
      | some co => exact ⟨co,rfl⟩
      | none =>
        have hnot : ∀ ra, l ≠ .resume c ra := by
          rintro ra rfl
          have hsome := hl.1.1
          rw [hco] at hsome
          cases hsome
        obtain ⟨_,_,hsame⟩ := step_waiting hw.inv hl.1 h hl.2.symm hw.born hnot
        rw [hco,or_self] at hsame
        obtain ⟨co,hco⟩ := hinv.env.alive (c := c) (List.mem_of_mem_head? (hback ▸ hinv.env.head))
        rw [hsame] at hco
        cases hco
    obtain ⟨co,hco⟩ := hgoes
    have hleft : m.left c = some q := hback ▸ hq.goesOn co (hback ▸ hco) (hback ▸ hw.goesOn co hco)
    rw [hw.left] at hleft
    cases hleft
    exact hq.resumes
  · refine .inr ⟨hback,?_⟩
    have hnot : ∀ ra, l ≠ .resume c ra := by
      rintro ra rfl
      obtain ⟨t,ht,_,_,hgo⟩ := hw.inv.resume hl.1.1 hl.1.2 ra
      have hsame : n = t := Option.some.inj (h.symm.trans ht)
      subst hsame
      rcases hgo with rfl | ⟨hc,_⟩
      · -- one that has returned does not wait
        obtain ⟨co,hco⟩ := Option.isSome_iff_exists.mp hl.1.1
        have hne : n.env.control ≠ c := hl.2
        obtain ⟨hrun,hexit⟩ := Environment.running_iff (hw.inv.env.runtime c co hco)
        have hr : co.running := (hw.goesOn co hco).resolve_left (hw.inv.env.off_stack hl.1.2).2
        have he : ¬co.exit := by
          intro he
          have hboth : RUNNING = EXIT := (hrun.mp hr).symm.trans (hexit.mp he)
          exact absurd hboth (by decide)
        have henv : n.env.resume c = some n.env := by
          obtain ⟨t,ht,henv,_⟩ := hw.inv.resume hl.1.1 hl.1.2 ra
          have hsame : n = t := Option.some.inj (h.symm.trans ht)
          rwa [← hsame] at henv
        have hst := (Environment.resume_effects hco he henv).2.1
        exact absurd hst (fun h => List.cons_ne_self c n.env.cStack h.symm)
      · exact hback hc
    obtain ⟨hborn,hleft,hco⟩ := step_waiting hw.inv hl.1 h hl.2.symm hw.born hnot
    refine ⟨hinv,hborn,hleft.trans hw.left,fun co hn => ?_⟩
    rcases hco with hco | hco
    · exact hw.goesOn co (hco ▸ hn)
    · rw [hn] at hco
      cases hco

def calleeSaved : List Reg := [.rbx,.rbp,.r12,.r13,.r14,.r15]

structure LeftAt (s : Cpu) (ra : Code) (p : Point) : Prop where
  rip : p.rip = ra
  top : s.regs .rsp = .ptr (p.top.plus 8)
  regs : ∀ r ∈ calleeSaved, p.regs r = s.regs r

theorem leaving_leftAt (hm : m.Kept) (k next : Nat) (ra : Code) :
    ∃ p, leaving (withArguments m.cpu k next) ra = some p ∧ LeftAt m.cpu ra p := by
  obtain ⟨top,_,_,hrsp,_⟩ := hm.stack
  have hrsp' : (withArguments m.cpu k next).regs .rsp = .ptr (top.plus 8) := hrsp
  refine ⟨⟨ra,top,(withArguments m.cpu k next).regs⟩,?_,rfl,hrsp,fun r hr => ?_⟩
  · simp only [leaving,hrsp',Addr.plus,Nat.add_sub_cancel]
  · have hne : ∀ r ∈ calleeSaved, r ≠ .rsi ∧ r ≠ .rdi := by decide
    exact (State.setReg_other _ (hne r hr).1 _).trans (State.setReg_other _ (hne r hr).2 _)

theorem Inv.leaves (hm : m.Inv) {l : Label} (hl : m.Allowed l) (h : m.step l = some n) {ra : Code}
    (hra : l.returnsTo = some ra) (hgone : n.env.control ≠ m.env.control) :
    ∃ p, LeftAt m.cpu ra p ∧ Waits m.env.control p n := by
  obtain ⟨t,ht,hinv,hcall,_⟩ := hm.step hl
  rw [h] at ht
  cases ht
  obtain ⟨co₀,hco₀⟩ := hm.env.alive (c := m.env.control) (List.mem_of_mem_head? hm.env.head)
  have hborn : m.env.control < m.env.created := hm.env.toCore.born hco₀
  have hlive : ∀ co, m.env.coroutines m.env.control = some co → m.env.control = main ∨ co.running := by
    intro co hco
    refine hm.env.running.imp_right (fun hr => ?_)
    obtain ⟨co',hco',hr⟩ := hr
    rw [hco] at hco'
    cases hco'
    exact (Environment.running_iff (hm.env.runtime _ _ hco)).1.mpr hr
  cases l with
  | resume c ra' =>
    cases hra
    obtain ⟨k,next,hleft⟩ := (resume_left h).2 hgone
    obtain ⟨p,hp,hleftAt⟩ := leaving_leftAt hm.toKept k next ra
    have hc : m.env.control ≠ c := (hm.env.off_stack hl.2).1.symm
    obtain ⟨co,hco⟩ := Option.isSome_iff_exists.mp hl.1
    have he : ¬co.exit := by
      intro he
      have hstay : m.resume c ra = some m := by
        simp only [Machine.resume,hco,Option.bind_eq_bind,Option.bind_some,if_pos he]
      have hsame : n = m := Option.some.inj (h.symm.trans hstay)
      exact hgone (congrArg (fun m => m.env.control) hsame)
    obtain ⟨hother,_,hcreated⟩ := Environment.resume_effects (t := n.env) hco he hcall.2
    exact ⟨p,hleftAt,hinv,hcreated ▸ hborn,hleft.trans hp,fun co' hco' => hlive co' ((hother _ hc).symm.trans hco')⟩
  | yield ra' =>
    cases hra
    obtain ⟨k,hk⟩ := hm.env.current
    obtain ⟨next,hleft⟩ := (yield_left h).1 k hk hm.env.head
    obtain ⟨p,hp,hleftAt⟩ := leaving_leftAt hm.toKept k next ra
    obtain ⟨hother,_,hcreated⟩ := Environment.yield_effects (t := n.env) hcall.2
    exact ⟨p,hleftAt,hinv,hcreated ▸ hborn,hleft.trans hp,
      fun co' hco' => hlive co' ((congrFun hother _).symm.trans hco')⟩
  | _ => cases hra

end Returning

end Machine

end Coroutines
end FluentNet
