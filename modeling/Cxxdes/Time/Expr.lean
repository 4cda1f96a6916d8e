-- SUMMARY: Time expressions as trees that own type-erased expressions, and when building, copying and capturing keep what they count.
import Cxxdes.Time.Units

/-!
# Time expressions

A node of a time expression holds its operands by value, and a `time_expr` owns a node or, when
it was default constructed or moved from, none. Copy and move constructors go through the tree
member by member. The arithmetic of the scalars is a parameter, and so is the number that a
value stands for: a node may count in floating point, a `time_expr` counts in `Icount`.
-/

namespace Cxxdes.TimeUtils

open MachineInt

/-- Arithmetic on the values `V` that counting a node can give, with scalars `S`. An operation is
undefined where the one of the language is. -/
structure Arith (S V : Type) where
  int : Word intmax → V
  scalar : S → V
  neg : V → Option V
  add : V → V → Option V
  sub : V → V → Option V
  mul : V → V → Option V
  div : V → V → Option V
  /-- Conversion to `Icount`. -/
  toCount : V → Option (Word intmax)
  toCount_int : ∀ c, toCount (int c) = some c

/-- The nodes. `null` and `expr` are a `time_expr` without and with a node of its own, and
`unitless` is also what `time_expr` makes of a scalar. -/
inductive Node (S : Type) where
  | time (q : Time intmax)
  | unitless (x : S)
  | neg (a : Node S)
  | add (a b : Node S)
  | sub (a b : Node S)
  | mulScalar (a : Node S) (b : S)
  | scalarMul (a : S) (b : Node S)
  | divScalar (a : Node S) (b : S)
  | null
  | expr (value : Node S)
deriving DecidableEq

/-- `time_expr`, with what `impl_` points to. -/
structure TimeExpr (S : Type) where
  impl : Option (Node S) := none
deriving DecidableEq

/-- How an argument is passed. -/
inductive ValueCategory where
  | lvalue
  | constLvalue
  | rvalue
deriving DecidableEq

variable {S V : Type}

/-! ### Counting -/

/-- The member function `count` of a node. -/
def Node.count (A : Arith S V) (env : TimeBase) : Node S → Option V
  | time q => (q.count env.precision).map A.int
  | unitless x => do
    let c ← env.unit.count env.precision
    A.mul (A.scalar x) (A.int c)
  | neg a => do A.neg (← a.count A env)
  | add a b => do A.add (← a.count A env) (← b.count A env)
  | sub a b => do A.sub (← a.count A env) (← b.count A env)
  | mulScalar a b => do A.mul (← a.count A env) (A.scalar b)
  | scalarMul a b => do A.mul (A.scalar a) (← b.count A env)
  | divScalar a b => do A.div (← a.count A env) (A.scalar b)
  | null => some (A.int ⟨0, by decide⟩)
  | expr value => do return A.int (← A.toCount (← value.count A env))

/-- `environment::real_to_sim` of a node. -/
def Node.realToSim (A : Arith S V) (env : TimeBase) (n : Node S) : Option (Word intmax) := do
  A.toCount (← n.count A env)

/-- `time_expr::count`. -/
def TimeExpr.count (A : Arith S V) (env : TimeBase) (e : TimeExpr S) : Option (Word intmax) :=
  match e.impl with
  | none => some ⟨0, by decide⟩
  | some value => value.realToSim A env

/-! ### Copying and moving -/

/-- The copy constructor of a node. Copying a `time_expr` calls `other.impl_->clone()`, which is
undefined when `impl_` is null. -/
def Node.copy : Node S → Option (Node S)
  | time q => some (time q)
  | unitless x => some (unitless x)
  | neg a => do return neg (← a.copy)
  | add a b => do return add (← a.copy) (← b.copy)
  | sub a b => do return sub (← a.copy) (← b.copy)
  | mulScalar a b => do return mulScalar (← a.copy) b
  | scalarMul a b => do return scalarMul a (← b.copy)
  | divScalar a b => do return divScalar (← a.copy) b
  | null => none
  | expr value => do return expr (← value.copy)

/-- The move constructor of a node: the new node, and what is left of the old one. -/
def Node.move : Node S → Node S × Node S
  | time q => (time q, time q)
  | unitless x => (unitless x, unitless x)
  | neg a => (neg a.move.1, neg a.move.2)
  | add a b => (add a.move.1 b.move.1, add a.move.2 b.move.2)
  | sub a b => (sub a.move.1 b.move.1, sub a.move.2 b.move.2)
  | mulScalar a b => (mulScalar a.move.1 b, mulScalar a.move.2 b)
  | scalarMul a b => (scalarMul a b.move.1, scalarMul a b.move.2)
  | divScalar a b => (divScalar a.move.1 b, divScalar a.move.2 b)
  | null => (null, null)
  | expr value => (expr value, null)

/-- `make_node` takes over an operand: the operand in the new node, and the argument afterwards. -/
def Node.capture (cat : ValueCategory) (n : Node S) : Option (Node S × Node S) :=
  match cat with
  | .lvalue | .constLvalue => n.copy.map fun c => (c, n)
  | .rvalue => some n.move

/-- `time_expr::operator=(T &&)` for a node that is not a `time_expr`, with the argument
afterwards. For an lvalue `T` is a reference, so that the constructor of `impl` moves from it too;
only the copy constructor accepts a const node. -/
def TimeExpr.ofNode (cat : ValueCategory) (n : Node S) : Option (TimeExpr S × Node S) :=
  match cat with
  | .constLvalue => n.copy.map fun c => (⟨some c⟩, n)
  | .lvalue | .rvalue => some (⟨some n.move.1⟩, n.move.2)

/-- `time_expr::operator=` for another `time_expr`, with the other one afterwards. -/
def TimeExpr.assign (cat : ValueCategory) (other : TimeExpr S) :
    Option (TimeExpr S × TimeExpr S) :=
  match cat with
  | .lvalue | .constLvalue => do
    let value ← other.impl
    return (⟨some (← value.copy)⟩, other)
  | .rvalue => some (other, ⟨none⟩)

/-- A `time_expr` as an operand. -/
def TimeExpr.node (e : TimeExpr S) : Node S :=
  match e.impl with
  | none => .null
  | some value => .expr value

/-- The constructors of `time_expr`, which assign, and with them the parameter of `run_until` and
`run_for`. -/
def TimeExpr.build (cat : ValueCategory) : Node S → Option (TimeExpr S × Node S)
  | .null => (assign cat ⟨none⟩).map fun r => (r.1, r.2.node)
  | .expr value => (assign cat ⟨some value⟩).map fun r => (r.1, r.2.node)
  | n => ofNode cat n

/-! ### Value semantics -/

variable {N : Type}

/-- The number that a node counts. -/
def Node.number (A : Arith S V) (num : V → N) (env : TimeBase) (n : Node S) : Option N :=
  (n.count A env).map num

/-- The number that a `time_expr` counts. -/
def TimeExpr.number (A : Arith S V) (num : V → N) (env : TimeBase) (e : TimeExpr S) : Option N :=
  (e.count A env).map fun c => num (A.int c)

/-- Taking `n` over as `f` does gives something that counts the same number, and leaves an lvalue
`n` as it is. -/
def Faithful (A : Arith S V) (num : V → N) (n : Node S) {R : Type}
    (number : TimeBase → R → Option N)
    (f : ValueCategory → Node S → Option (R × Node S)) : Prop :=
  ∀ cat, ∃ r, f cat n = some r ∧ (∀ env, number env r.1 = n.number A num env) ∧
    (cat ≠ .rvalue → ∀ env, r.2.number A num env = n.number A num env)

/-- `n` behaves as a value when a `time_expr` is built from it and when it becomes an operand. -/
structure IsValue (A : Arith S V) (num : V → N) (n : Node S) : Prop where
  built : Faithful A num n (TimeExpr.number A num) TimeExpr.build
  captured : Faithful A num n (fun env m => m.number A num env) Node.capture

/-- What the node counts is a number that `Icount` has. -/
def Node.Integral (A : Arith S V) (num : V → N) (n : Node S) : Prop :=
  ∀ env v, n.count A env = some v → ∃ c, A.toCount v = some c ∧ num (A.int c) = num v

namespace Node

/-- No `time_expr` in the node is null. -/
def whole : Node S → Bool
  | time _ | unitless _ => true
  | neg a | mulScalar a _ | scalarMul _ a | divScalar a _ => a.whole
  | add a b | sub a b => a.whole && b.whole
  | null => false
  | expr value => value.whole

/-- The node is a `time_expr` itself. -/
def isExpr : Node S → Bool
  | null | expr _ => true
  | _ => false

/-- The node with a null `time_expr` in place of each that it holds as an operand. -/
def emptied : Node S → Node S
  | time q => time q
  | unitless x => unitless x
  | neg a => neg a.emptied
  | add a b => add a.emptied b.emptied
  | sub a b => sub a.emptied b.emptied
  | mulScalar a b => mulScalar a.emptied b
  | scalarMul a b => scalarMul a b.emptied
  | divScalar a b => divScalar a.emptied b
  | null | expr _ => null

theorem copy_eq (n : Node S) : n.copy = if n.whole then some n else none := by
  induction n with
  | time | unitless | null => rfl
  | neg a ih | mulScalar a b ih | scalarMul b a ih | divScalar a b ih | expr a ih =>
      simp only [copy, whole, ih]
      by_cases ha : a.whole = true <;> simp [ha]
  | add a b iha ihb | sub a b iha ihb =>
      simp only [copy, whole, iha, ihb]
      by_cases ha : a.whole = true <;> by_cases hb : b.whole = true <;> simp [ha, hb]

theorem move_eq (n : Node S) : n.move = (n, n.emptied) := by
  induction n with
  | time | unitless | null | expr => rfl
  | neg a ih | mulScalar a b ih | scalarMul b a ih | divScalar a b ih =>
      simp only [move, emptied, ih]
  | add a b iha ihb | sub a b iha ihb => simp only [move, emptied, iha, ihb]

end Node

/-! ### What is kept -/

/-- As an operand, a `time_expr` counts what it counts. -/
theorem Node.number_expr (A : Arith S V) (num : V → N) (env : TimeBase) (n : Node S) :
    (expr n).number A num env = TimeExpr.number A num env ⟨some n⟩ := by
  unfold number TimeExpr.number
  rw [count, show TimeExpr.count A env ⟨some n⟩ = n.realToSim A env from rfl, realToSim]
  cases n.count A env with
  | none => rfl
  | some v =>
      simp only [Option.bind_eq_bind, Option.bind_some]
      cases A.toCount v <;> rfl

/-- A `time_expr` counts the number that its node counts if `Icount` has it. -/
theorem TimeExpr.number_eq_iff (A : Arith S V) (num : V → N) (n : Node S) :
    (∀ env, number A num env ⟨some n⟩ = n.number A num env) ↔ n.Integral A num := by
  refine forall_congr' fun env => ?_
  unfold number Node.number
  rw [show count A env ⟨some n⟩ = n.realToSim A env from rfl, Node.realToSim]
  cases n.count A env with
  | none => exact iff_of_true rfl nofun
  | some v =>
      simp only [Option.bind_eq_bind, Option.bind_some, Option.map_some]
      cases hcount : A.toCount v with
      | none =>
          refine ⟨nofun, fun h => ?_⟩
          obtain ⟨c, hc, -⟩ := h v rfl
          cases hcount.symm.trans hc
      | some c =>
          simp only [Option.map_some, Option.some.injEq]
          constructor
          · rintro h w rfl
            exact ⟨c, hcount, h⟩
          · intro h
            obtain ⟨c', hc', hnum⟩ := h v rfl
            cases hcount.symm.trans hc'
            exact hnum

/-- Operands are taken over faithfully unless one has to be copied that is null. -/
theorem Node.capture_faithful (A : Arith S V) (num : V → N) (n : Node S) :
    Faithful A num n (fun env m => m.number A num env) capture ↔ n.whole = true := by
  constructor
  · intro h
    obtain ⟨r, hr, -⟩ := h .lvalue
    simp only [capture, copy_eq] at hr
    cases hw : n.whole with
    | true => rfl
    | false => simp [hw] at hr
  · intro hw cat
    have hcopy : n.copy = some n := by rw [copy_eq, if_pos hw]
    cases cat with
    | lvalue | constLvalue =>
        refine ⟨(n, n), ?_, fun _ => rfl, fun _ _ => rfl⟩
        simp only [capture, hcopy, Option.map_some]
    | rvalue =>
        refine ⟨n.move, rfl, fun _ => ?_, fun h => absurd rfl h⟩
        rw [move_eq]

/-- Building from a node that is not a `time_expr` moves from an lvalue. -/
theorem TimeExpr.ofNode_faithful (A : Arith S V) (num : V → N) {n : Node S}
    (hw : n.whole = true) : Faithful A num n (number A num) ofNode ↔
      n.Integral A num ∧ ∀ env, n.emptied.number A num env = n.number A num env := by
  have hcopy : n.copy = some n := by rw [Node.copy_eq, if_pos hw]
  rw [← number_eq_iff]
  constructor
  · intro h
    obtain ⟨r, hr, hcount, hafter⟩ := h .lvalue
    rw [ofNode, Node.move_eq] at hr
    cases hr
    exact ⟨hcount, hafter (by decide)⟩
  · rintro ⟨hcount, h⟩ cat
    cases cat with
    | constLvalue =>
        refine ⟨(⟨some n⟩, n), ?_, hcount, fun _ _ => rfl⟩
        rw [ofNode, hcopy]
        rfl
    | lvalue | rvalue =>
        refine ⟨(⟨some n⟩, n.emptied), ?_, hcount, fun _ => h⟩
        rw [ofNode, Node.move_eq]

/-- A `time_expr` is built from another one by copying its node, or by taking it. -/
theorem TimeExpr.build_faithful (A : Arith S V) (num : V → N) {n : Node S}
    (hw : n.whole = true) : Faithful A num n (number A num) build ↔ n.isExpr = true ∨
      n.Integral A num ∧ ∀ env, n.emptied.number A num env = n.number A num env := by
  cases n with
  | null => cases hw
  | expr value =>
      refine iff_of_true (fun cat => ?_) (.inl rfl)
      have hcopy : value.copy = some value := by
        rw [Node.copy_eq, if_pos]
        exact hw
      cases cat with
      | lvalue | constLvalue =>
          refine ⟨(⟨some value⟩, .expr value), ?_, fun env => ?_, fun _ _ => rfl⟩
          · simp only [build, assign, hcopy, Option.bind_eq_bind, Option.bind_some, node,
              Option.pure_def, Option.map_some]
          · exact (Node.number_expr A num env value).symm
      | rvalue =>
          refine ⟨(⟨some value⟩, .null), rfl, fun env => ?_, fun h => absurd rfl h⟩
          exact (Node.number_expr A num env value).symm
  | time | unitless | neg | add | sub | mulScalar | scalarMul | divScalar =>
      refine (ofNode_faithful A num hw).trans ⟨.inr, fun h => ?_⟩
      cases h with
      | inl h => cases h
      | inr h => exact h

/-- A node behaves as a value if and only if none of its `time_expr`s is null, and it is one itself
or counts a number that `Icount` has, the same without those it holds as operands. -/
theorem Node.isValue_iff (A : Arith S V) (num : V → N) (n : Node S) :
    IsValue A num n ↔ n.whole = true ∧ (n.isExpr = true ∨
      n.Integral A num ∧ ∀ env, n.emptied.number A num env = n.number A num env) := by
  constructor
  · intro h
    have hw := (capture_faithful A num n).mp h.captured
    exact ⟨hw, (TimeExpr.build_faithful A num hw).mp h.built⟩
  · rintro ⟨hw, h⟩
    exact ⟨(TimeExpr.build_faithful A num hw).mpr h, (capture_faithful A num n).mpr hw⟩

/-! ### Integer expressions -/

/-- Expressions of `time_integral` only. -/
def integers : Arith (Word intmax) (Word intmax) where
  int := id
  scalar := id
  neg := Word.neg
  add := Word.add
  sub := Word.sub
  mul := Word.mul
  div := Word.div
  toCount := some
  toCount_int _ := rfl

theorem fits_one : intmax.Fits 1 := by decide

theorem fits_five : intmax.Fits 5 := by decide

/-- Ticks of 1 ms. -/
def millis : TimeBase := ⟨⟨⟨1, fits_one⟩, .seconds⟩, ⟨⟨1, fits_one⟩, .milliseconds⟩⟩

/-- `a + 5_ms` with a `time_expr` `a` of one second. -/
def late : Node (Word intmax) :=
  .add (.expr (.time ⟨⟨1, fits_one⟩, .seconds⟩)) (.time ⟨⟨5, fits_five⟩, .milliseconds⟩)

example : late.move.1.realToSim integers millis = some ⟨1005, by decide⟩ ∧
    late.move.2.realToSim integers millis = some ⟨5, by decide⟩ := by decide

/-- A node with a `time_expr` as operand is emptied when a `time_expr` is built from it. -/
theorem late_not_value :
    ¬ ∀ (S V N : Type) (A : Arith S V) (num : V → N) (n : Node S), IsValue A num n := by
  intro h
  have hbuilt := (TimeExpr.build_faithful integers Word.val (n := late) rfl).mp
    (h _ _ _ integers Word.val late).built
  cases hbuilt with
  | inl h1 => exact absurd h1 (by decide)
  | inr h1 => exact absurd (h1.2 millis) (by decide)

/-- Copying a default-constructed `time_expr` is undefined. -/
theorem null_not_value (A : Arith S V) (num : V → N) : ¬ IsValue A num (.null : Node S) := by
  intro h
  exact absurd ((Node.capture_faithful A num .null).mp h.captured) Bool.false_ne_true

end Cxxdes.TimeUtils
