-- SUMMARY: Control-flow expressions as trees, their durations, and the bodies of the processes in them.
import Cxxdes.Core.Environment
import Mathlib.Data.List.MinMax

/-!
# Control-flow expressions

An expression is a tree of delays, processes and compositions of them. `Flow.dur n` is how long it
takes when it is awaited at time `n`: the duration of a process is that of what its body awaits,
and a composition takes as long as the last or the first of its parts.
-/

namespace Cxxdes

/-! ### Expressions -/

/-- A control-flow expression. `process f o body` is a call of the coroutine function `f`, whose
body awaits the expressions `body` one after the other. -/
inductive Flow (U : Type) where
  | delay (time priority : Int)
  | until (time priority : Int)
  | process (f : U) (o : Options) (body : List (Flow U))
  | sequential (es : List (Flow U)) (o : Options)
  | comp (cond : Condition) (latency priority : Int) (es : List (Flow U))

variable {U : Type}

mutual
/-- The awaitable that the expression builds. Compositions get their settings as objects with a
name. -/
def Flow.awaitable : Flow U → Awaitable U
  | .delay time priority => .timeout true time priority none
  | .until time priority => .timeout false time priority none
  | .process f o _ => .call f o
  | .sequential es o => .sequential (awaitables es) o
  | .comp cond latency priority es =>
    .comp { cond := cond, latency := latency, priority := priority } (awaitables es)

def Flow.awaitables : List (Flow U) → List (Awaitable U)
  | [] => []
  | e :: es => e.awaitable :: awaitables es
end

mutual
/-- The awaitable when compositions get their settings in place, as in
`any_of(x, y).return_latency(1)`. -/
def Flow.inPlace : Flow U → Awaitable U
  | .delay time priority => .timeout true time priority none
  | .until time priority => .timeout false time priority none
  | .process f o _ => .call f o
  | .sequential es o => .sequential (inPlaces es) o
  | .comp cond latency priority es =>
    .comp { cond := cond, latency := latency, priority := priority,
            sliced := decide (latency ≠ 0 ∨ priority ≠ PriorityConsts.inherit) } (inPlaces es)

def Flow.inPlaces : List (Flow U) → List (Awaitable U)
  | [] => []
  | e :: es => e.inPlace :: inPlaces es
end

/-! ### Conditions -/

namespace Condition

/-- The maximum for `all_of` and the minimum for `any_of`. -/
def choose : Condition → List Int → Int
  | .allOf, ds => ds.max?.getD 0
  | .anyOf, ds => ds.min?.getD 0

/-- Whether a composition need not wait, from whether its children need to. -/
def needless : Condition → List Bool → Bool
  | .allOf, bs => bs.all id
  | .anyOf, bs => bs.any id

/-- `d` is on the side of `m` where it does not count. -/
def Within : Condition → Int → Int → Prop
  | .allOf, d, m => d ≤ m
  | .anyOf, d, m => m ≤ d

/-- `m` is the maximum or the minimum of `ds`. -/
structure Decides (cond : Condition) (ds : List Int) (m : Int) : Prop where
  mem : m ∈ ds
  within : ∀ d ∈ ds, cond.Within d m

variable {cond : Condition} {ds : List Int} {m : Int}

theorem choose_decides (cond : Condition) (hne : ds ≠ []) : cond.Decides ds (cond.choose ds) := by
  cases cond with
  | allOf =>
      cases hmax : ds.max? with
      | none => exact absurd (List.max?_eq_none_iff.mp hmax) hne
      | some m =>
          obtain ⟨hmem, hle⟩ := List.max?_eq_some_iff.mp hmax
          have hm : choose .allOf ds = m := by rw [choose, hmax]; rfl
          rw [hm]
          exact ⟨hmem, hle⟩
  | anyOf =>
      cases hmin : ds.min? with
      | none => exact absurd (List.min?_eq_none_iff.mp hmin) hne
      | some m =>
          obtain ⟨hmem, hle⟩ := List.min?_eq_some_iff.mp hmin
          have hm : choose .anyOf ds = m := by rw [choose, hmin]; rfl
          rw [hm]
          exact ⟨hmem, hle⟩

theorem choose_nonneg (cond : Condition) (h : ∀ d ∈ ds, 0 ≤ d) : 0 ≤ cond.choose ds := by
  by_cases hne : ds = []
  · subst hne
    cases cond <;> exact Int.le_refl 0
  · exact h _ (cond.choose_decides hne).mem

/-- A composition that need not wait takes no time. -/
theorem choose_needless {bs : List Bool} (h : List.Forall₂ (fun b d => b = true → d = 0) bs ds)
    (hpos : ∀ d ∈ ds, 0 ≤ d) (hb : cond.needless bs = true) : cond.choose ds = 0 := by
  by_cases hne : ds = []
  · subst hne
    cases cond <;> rfl
  · obtain ⟨hmem, hwithin⟩ := cond.choose_decides hne
    have hle : 0 ≤ cond.choose ds := hpos _ hmem
    cases cond with
    | allOf =>
        have hzero : ∀ d ∈ ds, d = 0 := by
          clear hmem hwithin hle hne hpos
          induction h with
          | nil => exact fun d hd => by cases hd
          | cons hbd _ ih =>
              obtain ⟨h1, h2⟩ := Bool.and_eq_true_iff.mp hb
              intro d hd
              cases List.mem_cons.mp hd with
              | inl hd => rw [hd]; exact hbd h1
              | inr hd => exact ih h2 d hd
        exact hzero _ hmem
    | anyOf =>
        have hzero : 0 ∈ ds := by
          clear hmem hwithin hle hne hpos
          induction h with
          | nil => cases hb
          | cons hbd _ ih =>
              cases Bool.or_eq_true_iff.mp hb with
              | inl h1 => rw [hbd h1]; exact List.mem_cons_self
              | inr h2 => exact List.mem_cons_of_mem _ (ih h2)
        exact Int.le_antisymm (hwithin 0 hzero) hle

/-- `Condition::operator()` with the number of children that are not ready. -/
theorem holds_eq_needless (cond : Condition) (bs : List Bool) :
    cond.holds bs.length (bs.count false) = cond.needless bs := by
  cases cond with
  | allOf =>
      unfold holds needless
      induction bs with
      | nil => rfl
      | cons b bs ih => cases b <;> simp_all
  | anyOf =>
      unfold holds needless
      induction bs with
      | nil => rfl
      | cons b bs ih =>
          have hle : bs.count false ≤ bs.length := List.count_le_length
          cases b with
          | true => simp; omega
          | false => simpa using ih

end Condition

/-! ### Durations -/

mutual
/-- Whether the expression need not wait at time `n`. -/
def Flow.ready (n : Int) : Flow U → Bool
  | .until time _ => decide (time ≤ n)
  | .comp cond _ _ es => cond.needless (readies n es)
  | _ => false

def Flow.readies (n : Int) : List (Flow U) → List Bool
  | [] => []
  | e :: es => e.ready n :: readies n es
end

mutual
/-- How long the expression takes from time `n` on. A composition adds its latency when it
waits. -/
def Flow.dur (n : Int) : Flow U → Int
  | .delay time _ => time
  | .until time _ => max 0 (time - n)
  | .process _ o body => o.latency + durSeq (n + o.latency) body + o.retLatency
  | .sequential es o => o.latency + durSeq (n + o.latency) es + o.retLatency
  | .comp cond latency _ es =>
    cond.choose (durs n es) + if cond.needless (readies n es) then 0 else latency

/-- The expressions one after the other, each from the end of the one before. -/
def Flow.durSeq (n : Int) : List (Flow U) → Int
  | [] => 0
  | e :: es => e.dur n + durSeq (n + e.dur n) es

/-- The expressions side by side. -/
def Flow.durs (n : Int) : List (Flow U) → List Int
  | [] => []
  | e :: es => e.dur n :: durs n es
end

/-! ### Bodies -/

variable {P : Program}

mutual
/-- The body in state `f` awaits the expressions `es` one after the other, and then returns. What
else it does, and with which values, is left open. -/
inductive Performs : P.Frame → List (Flow P.User) → Prop where
  | next (f : P.Frame) (es : List (Flow P.User)) (h : ∀ m n, Acts (f.next m n).2 es) :
      Performs f es

/-- The action is the first that a body does that awaits `es`. -/
inductive Acts : Action P.User P.Frame P.Value P.Error → List (Flow P.User) → Prop where
  | tau (f : P.Frame) (es : List (Flow P.User)) (h : Performs f es) : Acts (.tau f) es
  | await (e : Flow P.User) (es : List (Flow P.User)) (k : Result P.Value P.Error → P.Frame)
      (h : ∀ v, Performs (k (.ok v)) es) : Acts (.await e.awaitable k) (e :: es)
  | create (f : P.User) (o : Options) (es : List (Flow P.User)) (k : Handle → P.Frame)
      (h : ∀ p, Performs (k p) es) : Acts (.create f o k) es
  | declare (p : Handle) (es : List (Flow P.User)) (k : HandleId → P.Frame)
      (h : ∀ i, Performs (k i) es) : Acts (.declare p k) es
  | bind (p : Handle) (es : List (Flow P.User)) (k : Result P.Value P.Error → P.Frame)
      (h : ∀ r, Performs (k r) es) : Acts (.bind p k) es
  | coReturn (v : Option P.Value) : Acts (.coReturn v) []
end

theorem Performs.acts {f : P.Frame} {es : List (Flow P.User)} (h : Performs f es) (m : P.Memory)
    (n : Int) : Acts (f.next m n).2 es := by
  cases h with
  | next _ _ h => exact h m n

/-- A `seq_proc_*` body awaits the expressions of a `sequential`. -/
theorem performs_seq (es : List (Flow P.User)) :
    Performs (P := P) (.seq (Flow.awaitables es)) es := by
  induction es with
  | nil => exact .next _ _ fun _ _ => .coReturn none
  | cons e es ih =>
      refine .next _ _ fun m n => ?_
      cases e <;> exact .await _ es _ fun _ => ih

mutual
/-- The processes are shared, their bodies await what the tree says, no delay or latency is
negative, and an `any_of` has a child. -/
def Flow.Fits (P : Program) : Flow P.User → Prop
  | .delay time _ => 0 ≤ time
  | .until _ _ => True
  | .process f o body => o.unique = false ∧ 0 ≤ o.latency ∧ 0 ≤ o.retLatency ∧
      Performs (P := P) (.user (P.start f)) body ∧ FitAll P body
  | .sequential es o => o.unique = false ∧ 0 ≤ o.latency ∧ 0 ≤ o.retLatency ∧ FitAll P es
  | .comp cond latency _ es => 0 ≤ latency ∧ (cond = .anyOf → es ≠ []) ∧ FitAll P es

def Flow.FitAll (P : Program) : List (Flow P.User) → Prop
  | [] => True
  | e :: es => e.Fits P ∧ FitAll P es
end

mutual
theorem Flow.dur_nonneg {e : Flow P.User} (n : Int) (h : e.Fits P) : 0 ≤ e.dur n := by
  cases e with
  | delay time priority => exact h
  | «until» time priority => exact Int.le_max_left _ _
  | process f o body =>
      obtain ⟨-, h1, h2, -, h3⟩ := h
      exact Int.add_nonneg (Int.add_nonneg h1 (Flow.durSeq_nonneg _ h3)) h2
  | sequential es o =>
      obtain ⟨-, h1, h2, h3⟩ := h
      exact Int.add_nonneg (Int.add_nonneg h1 (Flow.durSeq_nonneg _ h3)) h2
  | comp cond latency priority es =>
      refine Int.add_nonneg (cond.choose_nonneg (Flow.durs_nonneg n h.2.2)) ?_
      split
      · exact Int.le_refl 0
      · exact h.1

theorem Flow.durSeq_nonneg {es : List (Flow P.User)} (n : Int) (h : FitAll P es) :
    0 ≤ durSeq n es := by
  cases es with
  | nil => exact Int.le_refl 0
  | cons e es => exact Int.add_nonneg (Flow.dur_nonneg n h.1) (Flow.durSeq_nonneg _ h.2)

theorem Flow.durs_nonneg {es : List (Flow P.User)} (n : Int) (h : FitAll P es) :
    ∀ d ∈ durs n es, 0 ≤ d := by
  cases es with
  | nil => exact fun d hd => by cases hd
  | cons e es =>
      intro d hd
      cases List.mem_cons.mp hd with
      | inl hd => rw [hd]; exact Flow.dur_nonneg n h.1
      | inr hd => exact Flow.durs_nonneg n h.2 d hd
end

mutual
/-- An expression that need not wait takes no time. -/
theorem Flow.dur_of_ready {e : Flow P.User} {n : Int} (h : e.Fits P) (hr : e.ready n = true) :
    e.dur n = 0 := by
  cases e with
  | «until» time priority =>
      have hle : time ≤ n := of_decide_eq_true hr
      exact max_eq_left (Int.sub_nonpos_of_le hle)
  | comp cond latency priority es =>
      have hzero : cond.choose (durs n es) = 0 :=
        Condition.choose_needless (Flow.durs_of_ready h.2.2) (Flow.durs_nonneg n h.2.2) hr
      have hr : cond.needless (readies n es) = true := hr
      simp only [Flow.dur, hzero, hr, if_true, Int.add_zero]
  | delay | process | sequential => cases hr

theorem Flow.durs_of_ready {es : List (Flow P.User)} {n : Int} (h : FitAll P es) :
    List.Forall₂ (fun b d => b = true → d = 0) (readies n es) (durs n es) := by
  cases es with
  | nil => exact .nil
  | cons e es => exact .cons (Flow.dur_of_ready h.1) (Flow.durs_of_ready h.2)
end

theorem Flow.readies_eq (n : Int) (es : List (Flow U)) : readies n es = es.map (Flow.ready n) := by
  induction es with
  | nil => rfl
  | cons e es ih => exact congrArg (e.ready n :: ·) ih

theorem Flow.durs_eq (n : Int) (es : List (Flow U)) : durs n es = es.map (Flow.dur n) := by
  induction es with
  | nil => rfl
  | cons e es ih => exact congrArg (e.dur n :: ·) ih

theorem Flow.FitAll.of_mem {es : List (Flow P.User)} (h : FitAll P es) {e : Flow P.User}
    (he : e ∈ es) : e.Fits P := by
  induction es with
  | nil => cases he
  | cons e' es ih =>
      cases List.mem_cons.mp he with
      | inl he => rw [he]; exact h.1
      | inr he => exact ih h.2 he

/-- When the expressions that have to wait are over, if all are awaited at time `n`. -/
def Flow.dues (n : Int) (es : List (Flow U)) : List Int :=
  (es.filter fun e => !e.ready n).map fun e => n + e.dur n

theorem Flow.mem_dues {n m : Int} {es : List (Flow U)} :
    m ∈ dues n es ↔ ∃ e ∈ es, e.ready n = false ∧ n + e.dur n = m := by
  simp [Flow.dues, and_assoc]

/-- A composition that waits goes on when the last or the first child it waits for is over. -/
theorem Flow.dues_decide {cond : Condition} {n : Int} {es : List (Flow P.User)}
    (h : FitAll P es) (hne : cond = .anyOf → es ≠ [])
    (hr : cond.needless (readies n es) = false) :
    cond.Decides (dues n es) (n + cond.choose (durs n es)) := by
  have hlast : ∃ e ∈ es, e.ready n = false := by
    cases cond with
    | allOf => simpa [Condition.needless, Flow.readies_eq] using hr
    | anyOf =>
        cases es with
        | nil => exact absurd rfl (hne rfl)
        | cons e es =>
            exact ⟨e, List.mem_cons_self, (Bool.or_eq_false_iff.mp hr).1⟩
  obtain ⟨e0, he0, hr0⟩ := hlast
  have hnonempty : durs n es ≠ [] := by
    rw [Flow.durs_eq]
    exact List.ne_nil_of_mem (List.mem_map_of_mem he0)
  obtain ⟨hmem, hwithin⟩ := cond.choose_decides hnonempty
  rw [Flow.durs_eq] at hmem hwithin ⊢
  obtain ⟨e, he, hdur⟩ := List.mem_map.mp hmem
  constructor
  · rw [Flow.mem_dues]
    cases hre : e.ready n with
    | false => exact ⟨e, he, hre, by rw [hdur]⟩
    | true =>
        -- a child that takes no time is chosen: then the waiting one takes none either
        refine ⟨e0, he0, hr0, ?_⟩
        have hzero := Flow.dur_of_ready (h.of_mem he) hre
        have hpos := Flow.dur_nonneg n (h.of_mem he0)
        cases cond with
        | allOf =>
            have hle : e0.dur n ≤ Condition.choose .allOf (es.map (Flow.dur n)) :=
              hwithin _ (List.mem_map_of_mem he0)
            omega
        | anyOf =>
            rw [Condition.needless, Flow.readies_eq, List.any_eq_false] at hr
            exact absurd hre (hr _ (List.mem_map_of_mem he))
  · intro d hd
    obtain ⟨e1, he1, -, rfl⟩ := Flow.mem_dues.mp hd
    have hw := hwithin _ (List.mem_map_of_mem he1)
    cases cond with
    | allOf => exact Int.add_le_add_left hw n
    | anyOf => exact Int.add_le_add_left hw n

theorem Flow.dues_length (n : Int) (es : List (Flow U)) :
    (dues n es).length = (readies n es).count false := by
  induction es with
  | nil => rfl
  | cons e es ih =>
      unfold Flow.dues at ih ⊢
      cases hr : e.ready n <;> simp_all [Flow.readies]

mutual
/-- An expression builds fresh awaitables, which a copy does not change. -/
theorem Flow.copy_awaitable (e : Flow U) : e.awaitable.copy = e.awaitable := by
  cases e with
  | comp cond latency priority es =>
      simp only [Flow.awaitable, Awaitable.copy, Flow.copyAll_awaitables es]
  | delay | «until» | process | sequential => rfl

theorem Flow.copyAll_awaitables (es : List (Flow U)) :
    Awaitable.copyAll (awaitables es) = awaitables es := by
  cases es with
  | nil => rfl
  | cons e es =>
      simp only [Flow.awaitables, Awaitable.copyAll, Flow.copy_awaitable e,
        Flow.copyAll_awaitables es]
end

theorem Flow.wrap_awaitable (e : Flow P.User) (s : State P) :
    e.awaitable.wrap s = e.awaitable := by
  cases e with
  | comp => exact Flow.copy_awaitable _
  | delay | «until» | process | sequential => rfl

end Cxxdes
