import FluentNet.Library.Selection
import FluentNet.Logger.Format
import FluentNet.Logger.Resolver
set_option autoImplicit false

/-!
The tags of a log line: the compiler sorts them by what they are worth, and a call puts
what they say in front of its message.
-/

namespace FluentNet
namespace Logger
open Cells

/-! Lists of types, each with the value that its `Elem` has. Nothing where a template has
no definition for its arguments. -/

namespace Meta
variable {α : Type} (value : α → Int)

def minValue : List α → Option Int
  | [] => none
  | [t] => some (value t)
  | t :: ts => (minValue ts).map (min (value t))

def minType : List α → Option α
  | [] => none
  | [t] => some t
  | t :: ts => do
      let least ← minValue value ts
      let other ← minType ts
      some (if value t ≤ least then t else other)

def select2 : Nat → List α → Option (List α)
  | _, [] | 0, _ => none
  | 1, t :: _ => some [t]
  | n+2, t :: ts => (select2 (n+1) ts).map (fun rest => [t] ++ rest)

def select1 (start fin : Nat) : Nat → List α → Option (List α)
  | _, [] => none
  | cur, t :: ts => if cur = start then select2 (fin-start+1) (t :: ts) else select1 start fin (cur+1) ts

def select (l r : Nat) (ts : List α) : Option (List α) :=
  if l ≤ r ∧ r ≤ ts.length then select1 l r 0 ts else none

variable [DecidableEq α]

def find1 (cur : Nat) (t : α) : List α → Option Nat
  | [] => none
  | u :: us => if u = t then some cur else find1 (cur+1) t us

def find (t : α) (us : List α) : Option Nat := find1 0 t us

/-- `Sort2<MinPos, MaxIdx, Ts...>::type`, where `sort1` is what it makes of `Sort1`. -/
def sort2 (sort1 : List α → Option (List α)) (minPos maxIdx : Nat) (ts : List α) : Option (List α) :=
  -- both of the specialisations
  if minPos = 0 ∧ maxIdx = 0 then none
  else if minPos = 0 then do
    let first ← ts.head?
    let rest ← select 1 maxIdx ts
    let sorted ← sort1 rest
    some ([first] ++ sorted)
  else if minPos = maxIdx then do
    let first ← select maxIdx maxIdx ts
    let rest ← select 0 (maxIdx-1) ts
    let sorted ← sort1 rest
    some (first ++ sorted)
  else if minPos+1 ≤ maxIdx then do
    let first ← select minPos minPos ts
    let before ← select 0 (minPos-1) ts
    let behind ← select (minPos+1) maxIdx ts
    let sorted ← sort1 (before ++ behind)
    some (first ++ sorted)
  else none

/-- `Sort1<std::tuple<Ts...>>::type`; templates are instantiated to a depth of `depth`. -/
def sort1 : Nat → List α → Option (List α)
  | 0, _ | _, [] => none
  | _+1, [t] => some [t]
  | depth+1, t :: ts => do
      let least ← minType value (t :: ts)
      let minPos ← find least (t :: ts)
      sort2 (sort1 depth) minPos ts.length (t :: ts)

def sort (depth : Nat) (ts : List α) : Option (List α) := sort1 value depth ts

section Sorts
variable {ts : List α}

omit [DecidableEq α] in
/-- The least of the values is the value of the first type that has it. -/
theorem minType_first (h : ts ≠ []) : ∃ pre least post, ts = pre ++ least :: post ∧
    minType value ts = some least ∧ minValue value ts = some (value least) ∧
    (∀ b ∈ pre, ¬value b ≤ value least) ∧ ∀ b ∈ post, value least ≤ value b := by
  induction ts with
  | nil => exact absurd rfl h
  | cons t ts ih =>
    cases ts with
    | nil => exact ⟨[],t,[],rfl,rfl,rfl,by simp,by simp⟩
    | cons u us =>
      obtain ⟨pre,least,post,hsplit,htype,hvalue,hpre,hpost⟩ := ih (List.cons_ne_nil u us)
      have hmin : minValue value (t :: u :: us) = some (min (value t) (value least)) := by
        rw [minValue,hvalue,Option.map_some]
        exact List.cons_ne_nil u us
      have htype' : minType value (t :: u :: us) = some (if value t ≤ value least then t else least) := by
        rw [minType,hvalue,htype]
        · rfl
        · exact List.cons_ne_nil u us
      rw [hmin,htype']
      by_cases hle : value t ≤ value least
      · refine ⟨[],t,u :: us,rfl,by rw [if_pos hle],by rw [Int.min_eq_left hle],by simp,fun b hb => ?_⟩
        rw [hsplit] at hb
        rcases List.mem_append.mp hb with hb | hb
        · exact Int.le_trans hle (Int.le_of_lt (Int.not_le.mp (hpre b hb)))
        · rcases List.mem_cons.mp hb with rfl | hb
          · exact hle
          · exact Int.le_trans hle (hpost b hb)
      · refine ⟨t :: pre,least,post,by rw [hsplit]; rfl,by rw [if_neg hle],
          by rw [Int.min_eq_right (Int.le_of_lt (Int.not_le.mp hle))],fun b hb => ?_,hpost⟩
        rcases List.mem_cons.mp hb with rfl | hb
        · exact hle
        · exact hpre b hb

theorem find1_append {pre post : List α} {least : α} (h : least ∉ pre) (cur : Nat) :
    find1 cur least (pre ++ least :: post) = some (cur+pre.length) := by
  induction pre generalizing cur with
  | nil => rw [List.nil_append,find1,if_pos rfl]; rfl
  | cons b pre ih =>
    obtain ⟨hne,hpre⟩ := not_or.mp (fun hb => h (List.mem_cons.mpr hb))
    rw [List.cons_append,find1,if_neg (Ne.symm hne),ih hpre,List.length_cons]
    congr 1
    omega

omit [DecidableEq α] in
theorem select2_take {n : Nat} (h : n < ts.length) : select2 (n+1) ts = some (ts.take (n+1)) := by
  induction n generalizing ts with
  | zero =>
    cases ts with
    | nil => cases h
    | cons t ts => rfl
  | succ n ih =>
    cases ts with
    | nil => cases h
    | cons t ts =>
      rw [select2,ih (Nat.lt_of_succ_lt_succ h)]
      rfl

omit [DecidableEq α] in
theorem select1_drop {start fin cur : Nat} (hcur : cur ≤ start) (h : start-cur < ts.length) :
    select1 start fin cur ts = select2 (fin-start+1) (ts.drop (start-cur)) := by
  induction ts generalizing cur with
  | nil => cases h
  | cons t ts ih =>
    rw [select1]
    by_cases he : cur = start
    · subst he
      rw [if_pos rfl,Nat.sub_self]
      rfl
    · have hdrop : start-cur = start-(cur+1)+1 := by omega
      rw [List.length_cons] at h
      rw [if_neg he,ih (by omega) (by omega),hdrop,List.drop_succ_cons]

omit [DecidableEq α] in
theorem select_slice {l r : Nat} (hl : l ≤ r) (hr : r < ts.length) :
    select l r ts = some ((ts.drop l).take (r-l+1)) := by
  rw [select,if_pos ⟨hl,Nat.le_of_lt hr⟩,select1_drop (Nat.zero_le l) (by omega),Nat.sub_zero,select2_take]
  rw [List.length_drop]
  omega

omit [DecidableEq α] in
theorem select_mid (pre post : List α) (least : α) :
    select pre.length pre.length (pre ++ least :: post) = some [least] := by
  have hlength : pre.length < (pre ++ least :: post).length := by
    rw [List.length_append,List.length_cons]
    omega
  rw [select_slice (Nat.le_refl _) hlength,List.drop_left,Nat.sub_self]
  rfl

omit [DecidableEq α] in
theorem select_before {pre : List α} (hpre : pre ≠ []) (more : List α) :
    select 0 (pre.length-1) (pre ++ more) = some pre := by
  have hpos := List.length_pos_iff.mpr hpre
  have hlength : pre.length-1 < (pre ++ more).length := by
    rw [List.length_append]
    omega
  have hall : pre.length-1-0+1 = pre.length := by omega
  rw [select_slice (Nat.zero_le _) hlength,List.drop_zero,hall,List.take_left]

omit [DecidableEq α] in
theorem select_behind {post : List α} (hpost : post ≠ []) (pre : List α) (least : α) :
    select (pre.length+1) (pre.length+post.length) (pre ++ least :: post) = some post := by
  have hpos := List.length_pos_iff.mpr hpost
  have hlength : pre.length+post.length < (pre ++ least :: post).length := by
    rw [List.length_append,List.length_cons]
    omega
  have hall : pre.length+post.length-(pre.length+1)+1 = post.length := by omega
  have hdrop : (pre ++ least :: post).drop (pre.length+1) = post := by
    rw [← List.drop_drop,List.drop_left,List.drop_one,List.tail_cons]
  rw [select_slice (by omega) hlength,hdrop,hall,List.take_length]

omit [DecidableEq α] in
/-- Whichever specialisation is used, the least comes first and the others are sorted. -/
theorem sort2_first {sort1 : List α → Option (List α)} {pre post : List α} {least : α} (h : pre ++ post ≠ []) :
    sort2 sort1 pre.length (pre ++ post).length (pre ++ least :: post) =
      (sort1 (pre ++ post)).map (fun sorted => least :: sorted) := by
  have hmid := select_mid pre post least
  rw [List.length_append]
  unfold sort2
  by_cases hpre : pre = []
  · subst hpre
    have hpost : post ≠ [] := h
    have hpos := List.length_pos_iff.mpr hpost
    have hbehind : select 1 (0+post.length) (least :: post) = some post := select_behind hpost [] least
    rw [List.length_nil,List.nil_append,List.nil_append,if_neg (by omega),if_pos rfl,hbehind]
    simp only [List.head?_cons,Option.bind_eq_bind,Option.bind_some]
    cases sort1 post <;> rfl
  have hprepos := List.length_pos_iff.mpr hpre
  have hbefore := select_before hpre (least :: post)
  rw [if_neg (by omega),if_neg (by omega)]
  by_cases hpost : post = []
  · subst hpost
    rw [List.length_nil,Nat.add_zero,if_pos rfl,hmid,hbefore,List.append_nil]
    simp only [Option.bind_eq_bind,Option.bind_some]
    cases sort1 pre <;> rfl
  · have hpostpos := List.length_pos_iff.mpr hpost
    rw [if_neg (by omega),if_pos (by omega),hmid,hbefore,select_behind hpost]
    simp only [Option.bind_eq_bind,Option.bind_some]
    cases sort1 (pre ++ post) <;> rfl

theorem sort1_insertionSort {depth : Nat} (h : ts ≠ []) (hdepth : ts.length ≤ depth) :
    sort1 value depth ts = some (ts.insertionSort (fun a b => value a ≤ value b)) := by
  induction depth generalizing ts with
  | zero => exact absurd (List.length_eq_zero_iff.mp (Nat.le_zero.mp hdepth)) h
  | succ depth ih =>
    obtain ⟨pre,least,post,rfl,htype,_,hpre,hpost⟩ := minType_first value h
    rw [Selection.insertionSort_least hpre hpost]
    have hfind : find least (pre ++ least :: post) = some pre.length := by
      rw [find,find1_append (fun hin => hpre least hin (Int.le_refl _)),Nat.zero_add]
    by_cases hrest : pre ++ post = []
    · obtain ⟨rfl,rfl⟩ := List.append_eq_nil_iff.mp hrest
      rfl
    · have hlength : (pre ++ least :: post).length = (pre ++ post).length+1 := by
        rw [List.length_append,List.length_cons,List.length_append]
        omega
      have hstep : sort1 value (depth+1) (pre ++ least :: post) =
          sort2 (sort1 value depth) pre.length (pre ++ post).length (pre ++ least :: post) := by
        cases hts : pre ++ least :: post with
        | nil => exact absurd hts h
        | cons t ts =>
          rw [hts] at htype hfind hlength
          rw [List.length_cons,Nat.succ.injEq] at hlength
          rw [sort1,htype,Option.bind_eq_bind,Option.bind_some,hfind,Option.bind_eq_bind,Option.bind_some,hlength]
          rintro rfl
          rw [List.length_nil] at hlength
          exact hrest (List.length_eq_zero_iff.mp hlength.symm)
      rw [hstep,sort2_first hrest,ih hrest (by omega)]
      rfl

/-- `Sort` has a definition for any list of types but the empty one, and is stable. -/
theorem sort_stable {depth : Nat} (h : ts ≠ []) (hdepth : ts.length ≤ depth) :
    ∃ out, sort value depth ts = some out ∧ out.Perm ts ∧ out.Pairwise (fun a b => value a ≤ value b) ∧
      ∀ a b, value a ≤ value b → [a,b].Sublist ts → [a,b].Sublist out := by
  have htotal : Std.Total (fun a b => value a ≤ value b) := ⟨fun a b => Int.le_total _ _⟩
  have htrans : IsTrans α (fun a b => value a ≤ value b) := ⟨fun a b c => Int.le_trans⟩
  exact ⟨_,sort1_insertionSort value h hdepth,List.perm_insertionSort _ ts,List.pairwise_insertionSort _ ts,
    fun a b hab hsub => List.pair_sublist_insertionSort hab hsub⟩

theorem sort_stable_two : ∃ out, sort (fun t : Nat × Nat => (t.1 : Int)) 4 [(2,0),(1,0),(2,1),(1,1)] = some out ∧
    [(1,0),(1,1)].Sublist out ∧ [(2,0),(2,1)].Sublist out := by
  have hts : [(2,0),(1,0),(2,1),(1,1)] ≠ ([] : List (Nat × Nat)) := by decide
  obtain ⟨out,hout,_,_,hstable⟩ := sort_stable (fun t : Nat × Nat => (t.1 : Int)) hts (Nat.le_refl 4)
  exact ⟨out,hout,hstable _ _ (by decide) (by decide),hstable _ _ (by decide) (by decide)⟩

end Sorts

end Meta

inductive LogLevel where
  | debug
  | info
  | warn
  | error
  | wtf
  deriving DecidableEq, Repr

/-- `"DIWE?"[LEVEL]` -/
def levelFormat : LogLevel → UInt8
  | .debug => 68
  | .info => 73
  | .warn => 87
  | .error => 69
  | .wtf => 63

inductive Tag where
  | dateTime
  | logLevel (level : LogLevel)
  | threadId
  deriving DecidableEq, Repr

def Tag.value : Tag → Int
  | .dateTime => 1
  | .logLevel _ => 2
  | .threadId => 3

def Tid.text (tid : Int) : Option (List UInt8) := do
  let len ← Stream.parseLength 32 tid
  let buf ← Stream.parse 32 0 tid len (fun _ => 0)
  some (slice buf 0 len)

def Tag.format (s : Chrono.Records) (tid : List UInt8) : Tag → Field
  | .dateTime => .ioves [s.dateRecord,s.timeRecord]
  | .logLevel level => .char (levelFormat level)
  | .threadId => .iov tid

structure StaticConfig where
  debugOn : Bool
  infoOn : Bool
  warnOn : Bool
  errorOn : Bool
  wtfOn : Bool

def StaticConfig.on (conf : StaticConfig) : LogLevel → Bool
  | .debug => conf.debugOn
  | .info => conf.infoOn
  | .warn => conf.warnOn
  | .error => conf.errorOn
  | .wtf => conf.wtfOn

namespace Log

/-- `LogBase<DateTimeTag, ThreadIdTag>::logFormat`, up to the call of `apply`; `s` is what the
thread's clock keeps, `point` what the time is. -/
def logFormat (stack : Nat → UInt8) (depth : Nat) (s : Chrono.Records) (point tid : Int) (level : LogLevel)
    (msg : List Field) : Option (Chrono.Records × ResolveContext) := do
  let sorted ← Meta.sort Tag.value depth [.logLevel level,.dateTime,.threadId]
  let s ← Chrono.format s point
  let text ← Tid.text tid
  let ctx ← log stack (sorted.map (Tag.format s text) ++ msg)
  some (s,ctx)

/-- `debug`, `info`, `warn`, `error` and `wtf`; nothing is logged of a level that is off. -/
def call (conf : StaticConfig) (stack : Nat → UInt8) (depth : Nat) (s : Chrono.Records) (point tid : Int)
    (level : LogLevel) (msg : List Field) : Option (Chrono.Records × Option ResolveContext) :=
  if conf.on level then (logFormat stack depth s point tid level msg).map (fun r => (r.1,some r.2))
  else some (s,none)

end Log

section Calls
variable {stack : Nat → UInt8}

theorem tid_text {tid : Int} (h : 0 ≤ tid) : Tid.text tid = some (spelling tid) := by
  have htid : -(2^(32-1)) < tid := by omega
  obtain ⟨hlength,out,hout,hslice,_⟩ := Stream.parse_spelling 0 htid (fun _ => 0)
  rw [Tid.text,hlength,Option.bind_eq_bind,Option.bind_some,hout,Option.bind_eq_bind,Option.bind_some,hslice]

theorem tags_sorted {depth : Nat} (h : 3 ≤ depth) (level : LogLevel) :
    Meta.sort Tag.value depth [.logLevel level,.dateTime,.threadId] = some [.dateTime,.logLevel level,.threadId] :=
  Meta.sort1_insertionSort Tag.value (List.cons_ne_nil _ _) h

open Chrono in
/-- The date, the time, the level and the thread, and then the message: that is the line
of a call, unless a call of the thread was for a later day. -/
theorem log_call_line {conf : StaticConfig} {level : LogLevel} {points : List Int} {point tid : Int} {s : Records}
    {msg : List Field} {depth : Nat} (hon : conf.on level) (hdepth : 3 ≤ depth) (htid : 0 ≤ tid)
    (hpoints : ∀ p ∈ points ++ [point], SinceEpoch p) (hs : formats .init points = some s)
    (hyear : (dateOf point).y < 2050) (hlatest : ∀ p ∈ points, p/DAY ≤ point/DAY)
    (hmsg : ∀ f ∈ msg, f.Proper) (hroom : needsOf msg ≤ bufcnt msg+78) :
    ∃ t ctx, Log.call conf stack depth s point tid level msg = some (t,some ctx) ∧
      formats .init (points ++ [point]) = some t ∧
      ∀ buf base, slice (Resolver.put ctx buf base) base ctx.calspace =
        lineOf ([dateText (dateOf point),timeText point,[levelFormat level],spelling tid] ++ saysOf msg) := by
  obtain ⟨t,ht,hformats,hkept,htime⟩ := formats_snoc hpoints hs hyear
  have hdate := (hkept.dated (hpoints point (by simp)) hyear).mpr hlatest
  let fields : List Field := [.ioves [t.dateRecord,t.timeRecord],.char (levelFormat level),.iov (spelling tid)] ++ msg
  have hneeds : needsOf fields = 1+needsOf msg := by
    simp only [fields,needsOf,List.cons_append,List.nil_append,List.map_cons,List.sum_cons,Field.needs]
    omega
  have hbuf : bufcnt fields = 79+bufcnt msg := by
    simp only [fields,bufcnt,List.cons_append,List.nil_append,List.map_cons,List.sum_cons,Field.size,Field.sizeof]
    simp
    omega
  have hproper : ∀ f ∈ fields, f.Proper := by
    intro f hf
    simp only [fields,List.cons_append,List.nil_append,List.mem_cons] at hf
    rcases hf with rfl | rfl | rfl | hf
    · trivial
    · trivial
    · trivial
    · exact hmsg f hf
  obtain ⟨ctx,hctx,_,_,hput⟩ := @log_fits stack fields hproper (by omega)
  have hlog : log stack (([.dateTime,.logLevel level,.threadId] : List Tag).map (Tag.format t (spelling tid)) ++ msg) =
      some ctx := hctx
  refine ⟨t,ctx,?_,hformats,fun buf base => ?_⟩
  · simp only [Log.call,if_pos hon,Log.logFormat,tags_sorted hdepth,ht,tid_text htid,hlog,Option.bind_eq_bind,
      Option.bind_some,Option.map_some]
  · rw [(hput buf base).1]
    change lineOf ([t.dateRecord,t.timeRecord,[levelFormat level],spelling tid] ++ saysOf msg) = _
    rw [hdate,htime]

/-- 1970-01-01 00:00:01.005 I 42 hi -/
theorem log_call_line_hi : ∃ ctx, (Log.call ⟨true,true,true,true,true⟩ (fun _ => 0) 3 .init 1005000000 42 .info
      [.literal [104,105]]).map Prod.snd = some (some ctx) ∧
    slice (Resolver.put ctx (fun _ => 0) 0) 0 ctx.calspace = [49,57,55,48,45,48,49,45,48,49,32,48,48,58,48,48,58,48,49,
      46,48,48,53,32,73,32,52,50,32,104,105,10] := by
  have hmsg : ∀ f ∈ [Field.literal [104,105]], f.Proper := by
    intro f hf
    rw [List.mem_singleton.mp hf]
    trivial
  have hon : StaticConfig.on ⟨true,true,true,true,true⟩ .info = true := rfl
  have hpoints : ∀ p ∈ [] ++ [(1005000000 : Int)], Chrono.SinceEpoch p := by decide
  obtain ⟨t,ctx,hcall,_,hput⟩ := @log_call_line (fun _ => 0) _ _ _ _ _ _ _ _ hon (Nat.le_refl 3) (show (0 : Int) ≤ 42 by decide)
    hpoints rfl (by decide +kernel) (by simp) hmsg (by decide +kernel)
  refine ⟨ctx,by rw [hcall]; rfl,(hput _ _).trans (by decide +kernel)⟩

end Calls

end Logger
end FluentNet
