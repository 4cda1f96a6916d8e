-- SUMMARY: Strict weak orders on the elements of a list, and the contract of a priority queue over them.
import Mathlib.Order.Lattice
import Mathlib.Data.List.Basic

/-!
# Strict weak orders

The comparator of a priority queue need only be a strict weak order on the
elements that are stored. `Served r l a` says that a queue that holds `l` and
compares by `r` (`r a b`: `a` is served after `b`) may have `a` on top.
-/

namespace WeakOrder

variable {α : Type*} {r : α → α → Prop} {l : List α}

/-- `r` is a strict weak order on the elements of `l`. -/
structure StrictWeakOn (r : α → α → Prop) (l : List α) : Prop where
  irrefl : ∀ a ∈ l, ¬ r a a
  trans : ∀ a ∈ l, ∀ b ∈ l, ∀ c ∈ l, r a b → r b c → r a c
  incomp : ∀ a ∈ l, ∀ b ∈ l, ∀ c ∈ l,
    ¬ r a b → ¬ r b a → ¬ r b c → ¬ r c b → ¬ r a c ∧ ¬ r c a

/-- The contract of a priority queue: the element on top is stored, and nothing
that is stored is served before it, provided that `r` is a legal comparator. -/
def Served (r : α → α → Prop) (l : List α) (a : α) : Prop :=
  a ∈ l ∧ (StrictWeakOn r l → ∀ b ∈ l, ¬ r a b)

/-- Comparing by the value of a function into a linear order is legal. -/
theorem StrictWeakOn.of_key {κ : Type*} [LinearOrder κ] (key : α → κ)
    (h : ∀ a ∈ l, ∀ b ∈ l, r a b ↔ key b < key a) : StrictWeakOn r l where
  irrefl a ha hr := lt_irrefl _ ((h a ha a ha).mp hr)
  trans a ha b hb c hc hab hbc :=
    (h a ha c hc).mpr (lt_trans ((h b hb c hc).mp hbc) ((h a ha b hb).mp hab))
  incomp a ha b hb c hc hab hba hbc hcb := by
    simp only [h a ha b hb, h b hb a ha, h b hb c hc, h c hc b hb, not_lt] at hab hba hbc hcb
    have hac : key a = key c := (le_antisymm hab hba).trans (le_antisymm hbc hcb)
    simp [h a ha c hc, h c hc a ha, hac]

/-- A queue with a legal comparator by key serves an element of least key. -/
theorem Served.least {κ : Type*} [LinearOrder κ] {a : α} (key : α → κ)
    (h : ∀ a ∈ l, ∀ b ∈ l, r a b ↔ key b < key a) (ha : Served r l a) :
    ∀ b ∈ l, key a ≤ key b := by
  intro b hb
  have hmax := ha.2 (StrictWeakOn.of_key key h) b hb
  rw [h a ha.1 b hb, not_lt] at hmax
  exact hmax

/-- Only the comparisons of stored elements count. -/
theorem StrictWeakOn.congr {r' : α → α → Prop} (h : ∀ a ∈ l, ∀ b ∈ l, r a b ↔ r' a b)
    (hr : StrictWeakOn r l) : StrictWeakOn r' l where
  irrefl a ha hab := hr.irrefl a ha ((h a ha a ha).mpr hab)
  trans a ha b hb c hc hab hbc := (h a ha c hc).mp
    (hr.trans a ha b hb c hc ((h a ha b hb).mpr hab) ((h b hb c hc).mpr hbc))
  incomp a ha b hb c hc hab hba hbc hcb := by
    rw [← h a ha b hb] at hab
    rw [← h b hb a ha] at hba
    rw [← h b hb c hc] at hbc
    rw [← h c hc b hb] at hcb
    rw [← h a ha c hc, ← h c hc a ha]
    exact hr.incomp a ha b hb c hc hab hba hbc hcb

theorem Served.congr {r' : α → α → Prop} {a : α} (h : ∀ a ∈ l, ∀ b ∈ l, r a b ↔ r' a b) :
    Served r l a ↔ Served r' l a := by
  have h' : ∀ a ∈ l, ∀ b ∈ l, r' a b ↔ r a b := fun a ha b hb => (h a ha b hb).symm
  constructor
  · rintro ⟨ha, hmax⟩
    exact ⟨ha, fun hweak b hb hab => hmax (hweak.congr h') b hb ((h a ha b hb).mpr hab)⟩
  · rintro ⟨ha, hmax⟩
    exact ⟨ha, fun hweak b hb hab => hmax (hweak.congr h) b hb ((h a ha b hb).mp hab)⟩

end WeakOrder
