-- SUMMARY: A relation that leads on from each of finitely many elements to another of them runs into a cycle.
import Mathlib.Data.Fintype.Pigeonhole
import Mathlib.Logic.Function.Iterate
import Mathlib.Logic.Relation

/-!
# Cycles

`GoesOn r D` says that every element of `D` is related to an element of `D`. If `D` is finite then
every element of it leads to a cycle of `r`.
-/

namespace Cycle

variable {α : Type*} {r : α → α → Prop} {D : Set α}

/-- From every element of `D` the relation leads to an element of `D`. -/
def GoesOn (r : α → α → Prop) (D : Set α) : Prop :=
  ∀ a ∈ D, ∃ b ∈ D, r a b

/-- `a` leads to an element that leads back to itself. -/
def Enters (r : α → α → Prop) (a : α) : Prop :=
  ∃ b, Relation.ReflTransGen r a b ∧ Relation.TransGen r b b

/-- Following a function whose steps are in the relation. -/
theorem iterate_reflTransGen {f : α → α} (hf : ∀ a, r a (f a)) (a : α) (n : Nat) :
    Relation.ReflTransGen r a (f^[n] a) := by
  induction n with
  | zero => exact .refl
  | succ n ih =>
      rw [Function.iterate_succ_apply']
      exact ih.tail (hf _)

theorem iterate_transGen {f : α → α} (hf : ∀ a, r a (f a)) (a : α) {n : Nat} (hn : 0 < n) :
    Relation.TransGen r a (f^[n] a) := by
  obtain ⟨n, rfl⟩ : ∃ m, n = m + 1 := Nat.exists_eq_succ_of_ne_zero (Nat.ne_of_gt hn)
  rw [Function.iterate_succ_apply']
  exact .tail' (iterate_reflTransGen hf a n) (hf _)

theorem enters_of_finite [Finite α] (h : ∀ a, ∃ b, r a b) (a : α) : Enters r a := by
  choose f hf using h
  obtain ⟨m, n, hne, heq⟩ := Finite.exists_ne_map_eq_of_infinite fun n => f^[n] a
  -- of two visits to one element the later one comes back to the earlier one
  wlog hlt : m < n generalizing m n
  · exact this n m hne.symm heq.symm (Nat.lt_of_le_of_ne (Nat.le_of_not_lt hlt) hne.symm)
  refine ⟨f^[m] a, iterate_reflTransGen hf a m, ?_⟩
  have hcycle := iterate_transGen hf (f^[m] a) (Nat.sub_pos_of_lt hlt)
  rwa [← Function.iterate_add_apply, Nat.sub_add_cancel (Nat.le_of_lt hlt), ← heq] at hcycle

theorem GoesOn.enters (h : GoesOn r D) (hfin : Finite D) {a : α} (ha : a ∈ D) : Enters r a := by
  have hnext : ∀ x : D, ∃ y : D, r x.1 y.1 := fun x => by
    obtain ⟨b, hb, hr⟩ := h x.1 x.2
    exact ⟨⟨b, hb⟩, hr⟩
  obtain ⟨b, hab, hbb⟩ := enters_of_finite hnext ⟨a, ha⟩
  exact ⟨b.1, hab.lift Subtype.val fun _ _ => id, hbb.lift Subtype.val fun _ _ => id⟩

end Cycle
