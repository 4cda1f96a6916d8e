-- SUMMARY: A program and its coarser view have the same transitions, up to silent steps of bodies.
import Cxxdes.Core.View
import Cxxdes.Run.Frames

/-!
# Runs under a view

Every transition of the finer program is a transition of the view or a silent step
of a body, and every transition of the view is reached after finitely many silent
steps. The map on bodies keeps the clock, the memory, the tokens and the trace.
-/

namespace Cxxdes

variable {P : Program} {v : View P} {s s' : State P}

theorem Action.all_map {U φ ψ V E : Type} {p : ψ → Prop} {g : φ → ψ} {act : Action U φ V E}
    (h : act.All fun f => p (g f)) : (act.map g).All p := by
  cases act <;> exact h

/-- The frames that meet `Ok` are closed. -/
theorem View.closed (v : View P) : Frame.Closed (Frame.Ok v) where
  starts f hf := by
    cases hf with
    | user u => exact v.ok_start u
    | seq as => trivial
  next f m now hf := by
    cases f with
    | user b => exact Action.all_map (v.ok_next b m now hf)
    | seq as =>
        cases as with
        | nil => trivial
        | cons a as =>
            cases a with
            | ref h =>
                rintro (⟨_ | _⟩ | _) <;> trivial
            | timeout | wait | wake | coroutine | call | sequential | async | comp =>
                intro r
                cases r <;> trivial
    | raise e => trivial

/-- How many silent steps the body of `c` can make. -/
def State.rank (v : View P) (s : State P) (c : CoroId) : Nat :=
  match (s.coros c).status with
  | .running f => f.rank v
  | _ => 0

/-- A transition is seen as a transition, or it is a silent step of a body. -/
theorem Step.view {l : Label P} (hstep : Step s l s') (hok : s.Frames (Frame.Ok v)) :
    Step (s.view v) (l.view v) (s'.view v) ∨
      ∃ c, l = .exec c ∧ s'.view v = s.view v ∧ s'.rank v c < s.rank v c := by
  cases hstep with
  | call f o =>
      refine .inl ?_
      rw [newCoro_view, Frame.view, v.view_start]
      exact .call (P := v.program) (s.view v) f o
  | bind a hvalid hfits =>
      refine .inl ?_
      rw [← bind_call_view]
      exact .bind (P := v.program) (s.view v) a hvalid (by rw [bind_call_view]; exact hfits)
  | elsewhere c henv =>
      refine .inl ?_
      rw [setCoro_view]
      exact .elsewhere (s.view v) c henv
  | step t _ htop h hfits =>
      refine .inl (.step _ t _ htop ?_ hfits)
      rw [step_view, h]
      rfl
  | advance deadline h hfits => exact .inl (.advance (s.view v) deadline h hfits)
  | exec c _ h hfits =>
      obtain ⟨f, hst, -⟩ := exec_acted h
      have hf := hok c
      rw [hst] at hf
      rcases Frame.step_view hf s.memory s.now with ⟨f', hf', hview, hrank⟩ | hlock
      · obtain ⟨s1, h1, hs1, hco, -⟩ := exec_silent s hst hf' hview
        rw [h1] at h
        cases h
        refine .inr ⟨c, rfl, hs1, ?_⟩
        unfold State.rank
        rw [hst, hco, Function.update_self]
        exact hrank
      · refine .inl (.exec _ c _ ?_ hfits)
        rw [exec_lockstep s hst hlock, h]
        rfl
  | reset hcur hrun =>
      refine .inl ?_
      rw [reset_view]
      refine .reset (s.view v) hcur fun c f hf => ?_
      have hf : (s.coros c).status.view v = .running f := hf
      cases hst : (s.coros c).status with
      | running g => exact hrun c g hst
      | initial g | suspended a k | finished => rw [hst] at hf; cases hf

theorem Reachable.view {C : State v.program → Label v.program → Prop}
    (h : Reachable (fun s l => C (s.view v) (l.view v)) s) : Reachable C (s.view v) := by
  obtain ⟨m, h⟩ := h
  have hall : s.Tidy False ∧ s.Frames (Frame.Ok v) ∧ Reachable C (s.view v) := by
    refine h.invariant
      (I := fun s => s.Tidy False ∧ s.Frames (Frame.Ok v) ∧ Reachable C (s.view v)) ?_ ?_
    · rintro s l s' ⟨hs, hok, hr⟩ hc hstep
      refine ⟨hstep.tidy (by simp) hs, hstep.frames v.closed hs hok, ?_⟩
      rcases hstep.view hok with hv | ⟨c, -, hv, -⟩
      · exact hr.next hc hv
      · rw [hv]; exact hr
    · exact ⟨⟨fun _ _ => rfl, by simp⟩, fun _ => trivial, .init (P := v.program) m⟩
  exact hall.2.2

/-- An action of the view is reached after silent steps. The induction is on the rank
of the body. -/
theorem exec_of_view {C : State v.program → Label v.program → Prop} {c : CoroId}
    {t : State v.program} (hok : s.Frames (Frame.Ok v)) (hC : C (s.view v) (.exec c))
    (hfit : s.Fits) (hfits : t.Fits) (h : (s.view v).exec c = .ok t) :
    ∃ s', Transition.Runs Step (fun s l => C (s.view v) (l.view v)) s s' ∧ s'.view v = t := by
  have hrun : ∃ f, (s.coros c).status = .running f := by
    obtain ⟨g, hg, -⟩ := exec_acted h
    have hg : (s.coros c).status.view v = .running g := hg
    cases hst : (s.coros c).status with
    | running f => exact ⟨f, rfl⟩
    | initial | suspended | finished => rw [hst] at hg; cases hg
  obtain ⟨f, hst⟩ := hrun
  generalize hn : f.rank v = n
  induction n using Nat.strongRecOn generalizing s f with
  | ind n ih =>
      have hf := hok c
      rw [hst] at hf
      rcases Frame.step_view hf s.memory s.now with ⟨f', hf', hview, hrank⟩ | hlock
      · obtain ⟨s1, h1, hs1, hco, hm⟩ := exec_silent s hst hf' hview
        have hok1 : s1.Frames (Frame.Ok v) := by
          refine hok.update (c := c) (d := { s.coros c with status := .running f' }) ?_ hco
          have hall := v.closed.next f s.memory s.now hf
          rw [hf'] at hall
          exact hall
        have hfit1 : s1.Fits := by
          have h2 : (s1.view v).Fits := hs1 ▸ (show (s.view v).Fits from hfit)
          exact h2
        have hst1 : (s1.coros c).status = .running f' := by
          rw [hco, Function.update_self]
        obtain ⟨s2, hruns, hs2⟩ := ih (f'.rank v) (hn ▸ hrank) hok1 (hs1 ▸ hC) hfit1 (hs1 ▸ h)
          f' hst1 rfl
        have hone : Transition.Runs Step (fun s l => C (s.view v) (l.view v)) s s1 :=
          (Transition.Runs.refl s).tail (l := .exec c) hC (.exec s c s1 h1 hfit1)
        exact ⟨s2, hone.trans hruns, hs2⟩
      · rw [exec_lockstep s hst hlock] at h
        cases hs1 : s.exec c with
        | error e => rw [hs1] at h; cases h
        | ok s1 =>
            rw [hs1] at h
            cases h
            exact ⟨s1, (Transition.Runs.refl s).tail (l := .exec c) hC
              (.exec s c s1 hs1 hfits), rfl⟩

/-- A transition of the view is a transition of the program after silent steps. -/
theorem Step.of_view {C : State v.program → Label v.program → Prop} {l : Label v.program}
    {t : State v.program} (hok : s.Frames (Frame.Ok v)) (hfit : s.Fits) (hC : C (s.view v) l)
    (hstep : Step (s.view v) l t) :
    ∃ s', Transition.Runs Step (fun s l => C (s.view v) (l.view v)) s s' ∧ s'.view v = t := by
  have hone : ∀ (l' : Label P) (s' : State P), l'.view v = l → Step s l' s' →
      Transition.Runs Step (fun s l => C (s.view v) (l.view v)) s s' := by
    rintro l' s' rfl h
    exact (Transition.Runs.refl s).tail hC h
  cases hstep with
  | call f o =>
      refine ⟨_, hone (.call f o) _ rfl (.call s f o), ?_⟩
      rw [newCoro_view, Frame.view, v.view_start]
  | bind a hvalid hfits =>
      rw [bind_call_view] at hfits
      exact ⟨_, hone (.bind a) _ rfl (.bind s a hvalid hfits), (bind_call_view s a).symm⟩
  | elsewhere c henv =>
      exact ⟨_, hone (.elsewhere c) _ rfl (.elsewhere s c henv), setCoro_view s c _⟩
  | step t _ htop hst hfits =>
      rw [step_view] at hst
      cases hs1 : s.step t with
      | error e => rw [hs1] at hst; cases hst
      | ok s1 =>
          rw [hs1] at hst
          cases hst
          exact ⟨s1, hone (.step t) _ rfl (.step s t s1 htop hs1 hfits), rfl⟩
  | advance deadline hd hfits =>
      exact ⟨_, hone (.advance deadline) _ rfl (.advance s deadline hd hfits), rfl⟩
  | exec c _ hex hfits => exact exec_of_view hok hC hfit hfits hex
  | reset hcur hrun =>
      refine ⟨_, hone .reset _ rfl (.reset s hcur fun c f hf => ?_), reset_view s⟩
      have hf' : ((s.view v).coros c).status = .running (f.view v) := by
        change (s.coros c).status.view v = _
        rw [hf]
        rfl
      exact hrun c _ hf'

end Cxxdes
