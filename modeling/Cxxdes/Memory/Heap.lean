-- SUMMARY: Reference-counted objects and the ptrs to them: construction, assignment and destruction as the code does them.
import Cxxdes.Logic.Release

/-!
# Intrusive pointers

The objects derive from `reference_counted_base` and may have `ptr`s as members, as
`coroutine_data::parent_` and `token::coro_data`. A `Heap` is the objects with their counts and
members. An operation gives no heap where it is undefined: where an assertion fails, or
where it uses an object that has been destroyed.
-/

namespace Cxxdes.Memory

open RefCount

abbrev ObjectId := Nat

/-- The `ptr`s that are no members of a counted object, such as local variables, are taken
as those of an object that is never destroyed. -/
def outside : ObjectId := 0

/-- Where a `ptr` is. -/
structure Place where
  owner : ObjectId
  index : Nat
deriving DecidableEq

/-- A `ptr` with its `ptr_`, or one whose lifetime has ended. -/
inductive Slot where
  | ptr (pointee : Option ObjectId)
  | ended
deriving DecidableEq

def Slot.target : Slot → Option ObjectId
  | .ptr pointee => pointee
  | .ended => none

/-- `explicit` are the calls of `ref()` not yet undone, and `destroyed` is history. -/
structure Heap where
  counts : Counts ObjectId
  slots : ObjectId → List Slot
  explicit : ObjectId → Nat
  next : ObjectId
  destroyed : List ObjectId

namespace Heap

def init : Heap where
  counts := ⟨fun a => if a = outside then 1 else 0, fun a => decide (a = outside)⟩
  slots := fun _ => []
  explicit := fun a => if a = outside then 1 else 0
  next := 1
  destroyed := []

/-- The objects that the members of an object refer to, in the order of their destructors. -/
def owned (h : Heap) (a : ObjectId) : List ObjectId :=
  ((h.slots a).filterMap Slot.target).reverse

/-- The references to an object: the live `ptr`s and the calls of `ref()`. -/
def references (h : Heap) (a : ObjectId) : Nat :=
  h.explicit a + internal (Finset.range h.next) h.owned h.counts.alive a

/-- `ptr_` of a `ptr` that exists. -/
def read (h : Heap) (p : Place) : Option (Option ObjectId) :=
  if h.counts.alive p.owner then
    match (h.slots p.owner)[p.index]? with
    | some (.ptr pointee) => some pointee
    | _ => none
  else none

def set (h : Heap) (p : Place) (s : Slot) : Heap :=
  { h with slots := Function.update h.slots p.owner ((h.slots p.owner).set p.index s) }

/-- `if (ptr_) ptr_->ref();` -/
def ref (h : Heap) : Option ObjectId → Option Heap
  | none => some h
  | some a => if h.counts.alive a then some { h with counts := h.counts.ref a } else none

/-- Enough rounds to release everything. -/
def fuel (h : Heap) : Nat := ∑ a ∈ Finset.range h.next, (h.counts.count a + 1)

/-- `if (ptr_) ptr_->unref();`, with the destructors that it runs. -/
def unref (h : Heap) (pointee : Option ObjectId) : Option Heap :=
  (h.counts.release h.owned h.fuel pointee.toList).map fun r =>
    { h with counts := r.1, destroyed := h.destroyed ++ r.2 }

/-- `ptr::operator=(const ptr &)`. The old object is released before `other` is read and `*this`
is written. -/
def copyAssign (h : Heap) (p q : Place) : Option Heap := do
  let old ← h.read p
  let new ← h.read q
  if old = new then return h
  else do
    let h ← h.unref old
    let new ← h.read q
    let _ ← h.read p
    (h.set p (.ptr new)).ref new

/-- `ptr::operator=(ptr &&)`. -/
def moveAssign (h : Heap) (p q : Place) : Option Heap := do
  let old ← h.read p
  let new ← h.read q
  return (h.set p (.ptr new)).set q (.ptr old)

/-- Space for a `ptr` outside of the objects, with the initial value `nullptr`. -/
def push (h : Heap) : Heap :=
  { h with slots := Function.update h.slots outside (h.slots outside ++ [.ptr none]) }

/-- The `ptr` that `push` makes. -/
def pushed (h : Heap) : Place := ⟨outside, (h.slots outside).length⟩

/-- `ptr(T *)`. -/
def construct (h : Heap) (pointee : Option ObjectId) : Option Heap :=
  (h.push.set h.pushed (.ptr pointee)).ref pointee

/-- `ptr(const ptr &)`. -/
def copyConstruct (h : Heap) (q : Place) : Option Heap := h.push.copyAssign h.pushed q

/-- `ptr(ptr &&)`. -/
def moveConstruct (h : Heap) (q : Place) : Option Heap := h.push.moveAssign h.pushed q

/-- `~ptr()` of a `ptr` outside of the objects. -/
def destroy (h : Heap) (i : Nat) : Option Heap := do
  let old ← h.read ⟨outside, i⟩
  let h ← h.unref old
  return h.set ⟨outside, i⟩ .ended

/-- A new object with `n` members that are `ptr`s. Its count is 0. -/
def new (h : Heap) (n : Nat) : Heap where
  counts := { h.counts with alive := Function.update h.counts.alive h.next true }
  slots := Function.update h.slots h.next (List.replicate n (.ptr none))
  explicit := h.explicit
  next := h.next + 1
  destroyed := h.destroyed

end Heap

/-- What a program does with objects and `ptr`s. The members of an object are destroyed with it. -/
inductive Op where
  | new (n : Nat)
  | construct (pointee : Option ObjectId)
  | copyConstruct (q : Place)
  | moveConstruct (q : Place)
  | copyAssign (p q : Place)
  | moveAssign (p q : Place)
  | destroy (i : Nat)
  | ref (a : ObjectId)
  | unref (a : ObjectId)
deriving DecidableEq

namespace Heap

def exec (h : Heap) : Op → Option Heap
  | .new n => some (h.new n)
  | .construct pointee => h.construct pointee
  | .copyConstruct q => h.copyConstruct q
  | .moveConstruct q => h.moveConstruct q
  | .copyAssign p q => h.copyAssign p q
  | .moveAssign p q => h.moveAssign p q
  | .destroy i => h.destroy i
  | .ref a =>
    (h.ref (some a)).map fun h =>
      { h with explicit := Function.update h.explicit a (h.explicit a + 1) }
  | .unref a =>
    { h with explicit := Function.update h.explicit a (h.explicit a - 1) }.unref (some a)

/-- The operation is on `ptr`s and objects that exist, and undoes only what was done. -/
def Allowed (h : Heap) : Op → Prop
  | .new _ => True
  | .construct none => True
  | .construct (some a) => a ≠ outside ∧ h.counts.alive a = true
  | .copyConstruct q | .moveConstruct q => h.read q ≠ none
  | .copyAssign p q | .moveAssign p q => h.read p ≠ none ∧ h.read q ≠ none
  | .destroy i => h.read ⟨outside, i⟩ ≠ none
  | .ref a => a ≠ outside ∧ h.counts.alive a = true
  | .unref a => a ≠ outside ∧ h.explicit a ≠ 0

instance (h : Heap) (op : Op) : Decidable (h.Allowed op) := by
  cases op with
  | construct pointee => cases pointee <;> unfold Allowed <;> infer_instance
  | _ => unfold Allowed; infer_instance

end Heap

/-- The object is destroyed when `p` is released: all other references to it come from objects that
are destroyed with it. -/
inductive Doomed (h : Heap) (p : Place) : ObjectId → Prop where
  | intro (x : ObjectId) (hcount : h.counts.count x ≠ 0) (hexplicit : h.explicit x = 0)
      (hrefs : ∀ r, r ≠ p → h.read r = some (some x) → Doomed h p r.owner) : Doomed h p x

/-- A copy assignment does not release an object with which the one that stores `p` or `q` is
destroyed. -/
def Op.Safe (h : Heap) : Op → Prop
  | .copyAssign p q => h.read p = h.read q ∨ ¬ Doomed h p p.owner ∧ ¬ Doomed h p q.owner
  | _ => True

end Cxxdes.Memory
