import Mathlib.Logic.Function.Basic
set_option autoImplicit false

/-!
The Gregorian calendar, day after day.
-/

namespace Calendar

def leap (y : Int) : Prop := y%4 = 0 ∧ (y%100 ≠ 0 ∨ y%400 = 0)

instance (y : Int) : Decidable (leap y) := inferInstanceAs (Decidable (_ ∧ _))

def daysIn (y : Int) : Nat → Nat
  | 2 => if leap y then 29 else 28
  | 4 | 6 | 9 | 11 => 30
  | _ => 31

@[ext]
structure Date where
  y : Int
  m : Nat
  d : Nat
  deriving DecidableEq, Repr

namespace Date

structure Valid (a : Date) : Prop where
  month : 1 ≤ a.m ∧ a.m ≤ 12
  day : 1 ≤ a.d ∧ a.d ≤ daysIn a.y a.m

def next (a : Date) : Date :=
  if a.d < daysIn a.y a.m then { a with d := a.d+1 }
  else if a.m < 12 then ⟨a.y,a.m+1,1⟩
  else ⟨a.y+1,1,1⟩

def Before (a b : Date) : Prop := a.y < b.y ∨ a.y = b.y ∧ (a.m < b.m ∨ a.m = b.m ∧ a.d < b.d)

variable {a b c : Date}

theorem Before.trans (h : Before a b) (h' : Before b c) : Before a c := by
  unfold Before at *
  omega

theorem Before.ne (h : Before a b) : a ≠ b := by
  rintro rfl
  unfold Before at h
  omega

theorem daysIn_pos (y : Int) (m : Nat) : 1 ≤ daysIn y m := by
  unfold daysIn
  split
  · split <;> decide
  all_goals decide

theorem next_day (h : a.d < daysIn a.y a.m) : a.next = ⟨a.y,a.m,a.d+1⟩ := if_pos h

theorem next_month (h : a.d = daysIn a.y a.m) (hm : a.m < 12) : a.next = ⟨a.y,a.m+1,1⟩ := by
  rw [next,if_neg (by omega),if_pos hm]

theorem next_year (h : a.d = daysIn a.y a.m) (hm : a.m = 12) : a.next = ⟨a.y+1,1,1⟩ := by
  rw [next,if_neg (by omega),if_neg (by omega)]

theorem next_before (a : Date) : Before a a.next := by
  unfold next Before
  split
  · exact .inr ⟨rfl,.inr ⟨rfl,Nat.lt_succ_self _⟩⟩
  split
  · exact .inr ⟨rfl,.inl (Nat.lt_succ_self _)⟩
  · exact .inl (Int.lt_succ _)

theorem Valid.next_cases (h : a.Valid) :
    a.next = ⟨a.y,a.m,a.d+1⟩ ∨
    (a.d = daysIn a.y a.m ∧ a.next = ⟨a.y,a.m+1,1⟩) ∨
    (a.d = daysIn a.y a.m ∧ a.m = 12 ∧ a.next = ⟨a.y+1,1,1⟩) := by
  obtain ⟨⟨_,hm⟩,_,hd⟩ := h
  unfold Date.next
  split
  · exact .inl rfl
  split
  · exact .inr (.inl ⟨by omega,rfl⟩)
  · exact .inr (.inr ⟨by omega,by omega,rfl⟩)

theorem next_injective (ha : a.Valid) (hb : b.Valid) (h : a.next = b.next) : a = b := by
  obtain ⟨ham,_⟩ := ha.month
  obtain ⟨hbm,_⟩ := hb.month
  obtain ⟨had,_⟩ := ha.day
  obtain ⟨hbd,_⟩ := hb.day
  rcases ha.next_cases with hn | ⟨hlast,hn⟩ | ⟨hlast,hdec,hn⟩ <;>
    rcases hb.next_cases with hn' | ⟨hlast',hn'⟩ | ⟨hlast',hdec',hn'⟩ <;>
    rw [hn,hn'] at h <;> obtain ⟨hy,hm,hd⟩ := Date.mk.inj h
  · exact Date.ext hy hm (Nat.succ.inj hd)
  · omega
  · omega
  · omega
  · have hm' : a.m = b.m := Nat.succ.inj hm
    exact Date.ext hy hm' (by rw [hlast,hlast',hy,hm'])
  · omega
  · omega
  · omega
  · have hy' : a.y = b.y := by omega
    have hm' : a.m = b.m := hdec.trans hdec'.symm
    exact Date.ext hy' hm' (by rw [hlast,hlast',hy',hm'])

end Date

/-- A numbering of the days that goes on from one to the next. -/
structure Numbers (f : Int → Date) : Prop where
  valid : ∀ z, (f z).Valid
  next : ∀ z, f (z+1) = (f z).next

variable {f g : Int → Date}

/-- Such a numbering is known by any one of its days. -/
theorem Numbers.unique (hf : Numbers f) (hg : Numbers g) {z₀ : Int} (h : f z₀ = g z₀) (z : Int) : f z = g z := by
  have hup : ∀ n : Nat, f (z₀+n) = g (z₀+n) := by
    intro n
    induction n with
    | zero => simpa using h
    | succ n ih =>
      have hz : z₀+((n+1 : Nat) : Int) = z₀+n+1 := by omega
      rw [hz,hf.next,hg.next,ih]
  have hdown : ∀ n : Nat, f (z₀-n) = g (z₀-n) := by
    intro n
    induction n with
    | zero => simpa using h
    | succ n ih =>
      have hz : z₀-n = z₀-((n+1 : Nat) : Int)+1 := by omega
      rw [hz,hf.next,hg.next] at ih
      exact Date.next_injective (hf.valid _) (hg.valid _) ih
  by_cases hz : z₀ ≤ z
  · have hn : z = z₀+((z-z₀).toNat : Int) := by omega
    rw [hn]
    exact hup _
  · have hn : z = z₀-((z₀-z).toNat : Int) := by omega
    rw [hn]
    exact hdown _

theorem Numbers.before (hf : Numbers f) {i j : Int} (h : i < j) : Date.Before (f i) (f j) := by
  have hall : ∀ n : Nat, Date.Before (f i) (f (i+(n+1))) := by
    intro n
    induction n with
    | zero =>
      have hz : i+((0 : Nat)+1 : Int) = i+1 := by omega
      rw [hz,hf.next]
      exact Date.next_before _
    | succ n ih =>
      have hz : i+(((n+1 : Nat) : Int)+1) = i+(n+1)+1 := by omega
      rw [hz,hf.next]
      exact ih.trans (Date.next_before _)
  have hn : j = i+(((j-i-1).toNat : Int)+1) := by omega
  rw [hn]
  exact hall _

theorem Numbers.injective (hf : Numbers f) : Function.Injective f := by
  intro i j h
  rcases Int.lt_trichotomy i j with hlt | heq | hlt
  · exact absurd h (hf.before hlt).ne
  · exact heq
  · exact absurd h.symm (hf.before hlt).ne

end Calendar
