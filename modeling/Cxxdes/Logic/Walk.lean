-- SUMMARY: Walks along a partial function: under a rank that every step lowers they end and visit nothing twice.
import Mathlib.Logic.Relation
import Mathlib.Data.List.Nodup

/-!
# Walks

`up` sends an element to the next one, if there is one. A walk follows it to the end. `Ranked`
says that a number gets smaller at every step; then no walk goes on for ever, and no element
is above itself.
-/

namespace Walk

variable {α : Type*} {up : α → Option α} {rank : α → Nat}

/-- The elements from `h` on, if there are at most `n` of them. -/
def walk (up : α → Option α) : Nat → Option α → Option (List α)
  | _, none => some []
  | 0, some _ => none
  | n + 1, some a => (walk up n (up a)).map (a :: ·)

/-- `b` is next to `a`. -/
def Above (up : α → Option α) (a b : α) : Prop := up a = some b

/-- Every step lowers the rank. -/
def Ranked (up : α → Option α) (rank : α → Nat) : Prop :=
  ∀ a b, Above up a b → rank b < rank a

theorem walk_some {n : Nat} {a : α} {l : List α} (h : walk up (n + 1) (some a) = some l) :
    ∃ l', walk up n (up a) = some l' ∧ l = a :: l' := by
  simp only [walk, Option.map_eq_some_iff] at h
  obtain ⟨l', h', hl⟩ := h
  exact ⟨l', h', hl.symm⟩

namespace Ranked

theorem ends (h : Ranked up rank) (n : Nat) (a : α) (hn : rank a < n) :
    ∃ l, walk up n (some a) = some l := by
  induction n generalizing a with
  | zero => exact absurd hn (Nat.not_lt_zero _)
  | succ n ih =>
      simp only [walk]
      cases hup : up a with
      | none => exact ⟨[a], by simp [walk]⟩
      | some b =>
          have hb : rank b < n := Nat.lt_of_lt_of_le (h a b hup) (Nat.le_of_lt_succ hn)
          obtain ⟨l, hl⟩ := ih b hb
          exact ⟨a :: l, by rw [hl]; rfl⟩

theorem trans_lt (h : Ranked up rank) {a b : α} (hab : Relation.TransGen (Above up) a b) :
    rank b < rank a := by
  induction hab with
  | single hab => exact h _ _ hab
  | tail _ hbc ih => exact Nat.lt_trans (h _ _ hbc) ih

theorem acyclic (h : Ranked up rank) (a : α) : ¬ Relation.TransGen (Above up) a a := fun haa =>
  Nat.lt_irrefl _ (h.trans_lt haa)

end Ranked

/-- The elements of a walk are reached from its first one. -/
theorem mem_walk {n : Nat} {a b : α} {l : List α} (h : walk up n (some a) = some l)
    (hb : b ∈ l) : Relation.ReflTransGen (Above up) a b := by
  induction n generalizing a l with
  | zero => cases h
  | succ n ih =>
      obtain ⟨l', h', rfl⟩ := walk_some h
      cases List.mem_cons.mp hb with
      | inl hba => rw [hba]
      | inr hb =>
          cases hup : up a with
          | none =>
              rw [hup] at h'
              simp only [walk, Option.some.injEq] at h'
              subst h'
              cases hb
          | some a' =>
              rw [hup] at h'
              exact .head hup (ih h' hb)

/-- A walk ends at an element with no next one. -/
theorem walk_last {n : Nat} {a : α} {l : List α} (h : walk up n (some a) = some l) :
    ∃ r, l.getLast? = some r ∧ up r = none := by
  induction n generalizing a l with
  | zero => cases h
  | succ n ih =>
      obtain ⟨l', h', rfl⟩ := walk_some h
      cases hup : up a with
      | none =>
          rw [hup] at h'
          simp only [walk, Option.some.injEq] at h'
          subst h'
          exact ⟨a, rfl, hup⟩
      | some b =>
          rw [hup] at h'
          obtain ⟨r, hr, hnone⟩ := ih h'
          refine ⟨r, ?_, hnone⟩
          rw [List.getLast?_cons, hr]
          rfl

theorem Ranked.nodup (h : Ranked up rank) {n : Nat} {a : α} {l : List α}
    (hl : walk up n (some a) = some l) : l.Nodup := by
  induction n generalizing a l with
  | zero => cases hl
  | succ n ih =>
      obtain ⟨l', h', rfl⟩ := walk_some hl
      cases hup : up a with
      | none =>
          rw [hup] at h'
          simp only [walk, Option.some.injEq] at h'
          subst h'
          exact List.nodup_singleton a
      | some b =>
          rw [hup] at h'
          refine List.nodup_cons.mpr ⟨fun ha => ?_, ih h'⟩
          -- `a` would be above itself
          exact h.acyclic a (.head' hup (mem_walk h' ha))

end Walk
