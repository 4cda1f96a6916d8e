-- SUMMARY: Processes that wait for each other's ends never go on, whatever else is done with the environment.
import Cxxdes.Blocking.Rest

/-!
# Deadlocks last

A token is hung on a set of processes if it is executed only after one of them has ended: it is a
completion token of one of them, the output token of an `all_of` with a child that is hung, or that
of an `any_of` all of whose children are. If each process of the set waits for such a token, then
none of them goes on.
-/

namespace Cxxdes

variable {P : Program} {s s' : State P} {c : CoroId} {t : TokenId} {l : Label P}
  {D : Set CoroId}

/-- The token is executed only after a process of `D` has ended. -/
inductive State.HungOn (s : State P) (D : Set CoroId) : TokenId → Prop where
  | process (d : CoroId) (t : TokenId) (hd : d ∈ D) (ht : t ∈ (s.coros d).completionTokens)
      (hu : (s.coros d).unique = false) : s.HungOn D t
  | allOf (h : HandlerId) (t u : TokenId) (ts : List TokenId)
      (hout : (s.handlers h).completionTkn = some t) (hcond : (s.handlers h).cond = .allOf)
      (hts : s.Outstanding h ts) (hmem : u ∈ ts) (hu : s.HungOn D u) : s.HungOn D t
  | anyOf (h : HandlerId) (t : TokenId) (ts : List TokenId)
      (hout : (s.handlers h).completionTkn = some t) (hcond : (s.handlers h).cond = .anyOf)
      (hts : s.Outstanding h ts) (hall : ∀ u ∈ ts, s.HungOn D u) : s.HungOn D t

theorem State.HungOn.live (h : s.HungOn D t) : s.Live t := by
  cases h with
  | process d _ hd ht => exact .inr (.inr (.inl ⟨d, ht⟩))
  | allOf i _ u ts hout => exact .inr (.inr (.inr ⟨i, hout⟩))
  | anyOf i _ ts hout => exact .inr (.inr (.inr ⟨i, hout⟩))

theorem State.HungOn.notMem_queue (h : s.HungOn D t) (hs : Sound s) : t ∉ s.queue := by
  obtain ⟨gone, own, ho⟩ := hs.owned
  intro hq
  have hown := ho.queue t hq
  cases h with
  | process d _ hd ht =>
      rw [ho.completion d t ht] at hown
      cases hown
  | allOf i _ u ts hout | anyOf i _ ts hout =>
      rw [ho.output i t hout] at hown
      cases hown

/-- Each process of `D` is suspended with a token that is hung on `D`. -/
def State.Deadlocked (s : State P) (D : Set CoroId) : Prop :=
  ∀ c ∈ D, ∃ a k t, (s.coros c).status = .suspended a k ∧ a.token = some t ∧ s.HungOn D t

namespace Step.Plainly

/-- A token that is not pending is not executed. -/
theorem not_step (h : Step.Plainly s l s') (ht : t ∉ s.queue) : l ≠ .step t := by
  rintro rfl
  exact ht (h.step.popped h.single.sound).1

theorem hungOn (h : Step.Plainly s l s') (hD : s.Deadlocked D) (ht : s.HungOn D t) :
    s'.HungOn D t := by
  obtain ⟨gone, own, ho⟩ := h.single.sound.owned
  have hold : ∀ {i out}, (s.handlers i).completionTkn = some out → i < s.nextHandler :=
    fun {i out} hout => Nat.lt_of_not_le fun hle => by
      rw [ho.freshHandler i hle] at hout
      cases hout
  induction ht with
  | process d t hd ht hu =>
      obtain ⟨a, k, -, hst, -⟩ := hD d hd
      have hlt : d < s.nextCoro := h.single.sound.tidy.fresh.lt_of_status (by simp [hst])
      -- the process is suspended, so it does not return
      have hkept := h.step.coroKept h.single.sound h.free hlt fun f v _ hrun => by
        rw [hst] at hrun
        cases hrun
      exact .process d t hd (hkept.completion hu t ht) (hkept.unique.trans hu)
  | allOf i t u ts hout hcond hts hmem hu ih =>
      have hne := h.not_step (hu.notMem_queue h.single.sound)
      cases h.step.handler h.single.sound (hold hout) with
      | keeps hno heq =>
          exact .allOf i t u ts (by rw [heq]; exact hout) (by rw [heq]; exact hcond)
            (h.outstanding_keeps (hold hout) hts hno heq) hmem ih
      | counts w hl hh hno heq =>
          subst hl
          have hw := h.outstanding_popped hts hh
          obtain ⟨-, -, hts'⟩ := h.outstanding_counts (hold hout) hts hw (h.not_fires hout hno) heq
          have huw : u ≠ w := fun huw => hne (by rw [huw])
          exact .allOf i t u (ts.erase w) (by rw [heq]; exact hout) (by rw [heq]; exact hcond) hts'
            ((List.mem_erase_of_ne huw).mpr hmem) ih
      | fires w out hl hh he hout' hf hsch heq =>
          -- then `w` would be the only child that has yet to report
          subst hl
          have huw := hts.last_child hcond hf hmem (h.outstanding_popped hts hh)
          exact absurd (by rw [huw]) hne
  | anyOf i t ts hout hcond hts hall ih =>
      have hno : ∀ w, l = .step w → (s.tokens w).handler ≠ some i := by
        rintro w rfl hh
        have hw := h.outstanding_popped hts hh
        exact h.not_step ((hall w hw).notMem_queue h.single.sound) rfl
      have heq : s'.handlers i = s.handlers i := by
        cases h.step.handler h.single.sound (hold hout) with
        | keeps _ heq => exact heq
        | counts w hl hh | fires w _ hl hh => exact absurd hh (hno w hl)
      exact .anyOf i t ts (by rw [heq]; exact hout) (by rw [heq]; exact hcond)
        (h.outstanding_keeps (hold hout) hts hno heq) ih

/-- A process of a deadlock stays where it is. -/
theorem deadlocked_status (h : Step.Plainly s l s') (hw : s.Sleepers) (hD : s.Deadlocked D)
    (hc : c ∈ D) : (s'.coros c).status = (s.coros c).status := by
  obtain ⟨a, k, t, hst, htkn, hhung⟩ := hD c hc
  obtain ⟨u, hu, hwake⟩ := hw c a k hst
  obtain rfl : t = u := Option.some.inj (htkn.symm.trans hu)
  have hans := h.single.sources c t (by simp) ⟨hhung.live, hwake.handler, hwake.coroData⟩
  exact h.status_same hans (h.not_step (hhung.notMem_queue h.single.sound))
    (h.not_exec (by simp [hst])) (h.single.sound.tidy.fresh.lt_of_status (by simp [hst]))

theorem deadlocked (h : Step.Plainly s l s') (hw : s.Sleepers) (hD : s.Deadlocked D) :
    s'.Deadlocked D := fun c hc => by
  obtain ⟨a, k, t, hst, htkn, hhung⟩ := hD c hc
  exact ⟨a, k, t, (h.deadlocked_status hw hD hc).trans hst, htkn, h.hungOn hD hhung⟩

end Step.Plainly

/-- The step lemma over runs. -/
theorem State.Deadlocked.runs (hD : s.Deadlocked D) (h : Reachable ExceptionFree s)
    (hr : Transition.Runs Step ExceptionFree s s') :
    s'.Deadlocked D ∧ ∀ c ∈ D, (s'.coros c).status = (s.coros c).status := by
  have hall : Orderly s' ∧ s'.Deadlocked D ∧ ∀ c ∈ D, (s'.coros c).status = (s.coros c).status := by
    refine hr.invariant (I := fun s' => Orderly s' ∧ s'.Deadlocked D ∧
      ∀ c ∈ D, (s'.coros c).status = (s.coros c).status) ?_ ⟨h.orderly, hD, fun _ _ => rfl⟩
    rintro s1 l s2 ⟨ho, hD1, hst⟩ hl hstep
    have hp := ho.untroubled.plainly hl hstep
    exact ⟨ho.step hl hstep, hp.deadlocked ho.sleepers hD1, fun c hc =>
      (hp.deadlocked_status ho.sleepers hD1 hc).trans (hst c hc)⟩
  exact hall.2

/-- In every run without exceptions, processes each of which can go on only after another one of
them has ended stay suspended where they are. -/
theorem deadlock_lasts (h : Reachable ExceptionFree s) (hD : s.Deadlocked D)
    (hr : Transition.Runs Step ExceptionFree s s') (hc : c ∈ D) :
    (s'.coros c).status = (s.coros c).status :=
  (hD.runs h hr).2 c hc

/-- At rest, and without waiters in events, each token is hung on the processes that have not
ended. -/
theorem Idle.hungOn (h : Idle s) (hsh : s.Shared) (hev : ∀ e, s.events e = [])
    (ht : t < s.nextToken) (hex : t ∉ s.executed) : s.HungOn { d | s.Unfinished d } t := by
  induction hn : s.nextToken - t using Nat.strong_induction_on generalizing t with
  | _ n ih =>
  rcases (h.conserved t ht).resolve_right hex with hq | ⟨e, he⟩ | ⟨d, hd⟩ | ⟨i, hi⟩
  · rw [h.rest.queue] at hq
    cases hq
  · rw [hev e] at he
    cases he
  · exact .process d t (h.unfinished hd) hd (hsh d)
  · obtain ⟨ts, hts⟩ := h.orderly.families i t hi
    have hung : ∀ u ∈ ts, s.HungOn { d | s.Unfinished d } u := fun u hu => by
      obtain ⟨hlt, -, hexu⟩ := (hts.outstanding.mem u).mp hu
      have hless : s.nextToken - u < n := hn ▸ Nat.sub_lt_sub_left ht (hts.younger u hu)
      exact ih (s.nextToken - u) hless hlt hexu rfl
    cases hcond : (s.handlers i).cond with
    | anyOf => exact .anyOf i t ts hi hcond hts.outstanding hung
    | allOf =>
        have hne : ts ≠ [] := hts.nonempty.resolve_right fun hany => by
          rw [hcond] at hany
          cases hany.1
        obtain ⟨u, hu⟩ := List.exists_mem_of_ne_nil ts hne
        exact .allOf i t u ts hi hcond hts.outstanding hu (hung u hu)

/-- When nothing is pending after a run without exceptions and nobody waits for an event, the
processes that have not ended never go on, whatever is bound, called or run afterwards. -/
theorem unfinished_forever (h : Reachable ExceptionFree s) (hsh : s.Shared) (hrest : s.AtRest)
    (hev : ∀ e, s.events e = []) (hr : Transition.Runs Step ExceptionFree s s')
    (hc : s.Unfinished c) : (s'.coros c).status = (s.coros c).status := by
  have hi := h.idle hsh hrest
  have hD : s.Deadlocked { d | s.Unfinished d } := fun d hd => by
    obtain ⟨a, k, hst⟩ := hi.suspended hd
    obtain ⟨t, htkn, hw⟩ := hi.orderly.sleepers d a k hst
    exact ⟨a, k, t, hst, htkn, hi.hungOn hsh hev hw.lt hw.unexecuted⟩
  exact (hD.runs h hr).2 c hc

namespace knot

/-- Token 3 resumes process 0, and token 4 process 1, once the children 5 and 6 have reported. -/
theorem tied_deadlocked : tied.Deadlocked {0, 1} := by
  have hts : tied.Outstanding 0 [5, 6] := by
    refine ⟨by decide, fun t => ?_, rfl, by decide⟩
    match t with
    | 0 | 1 | 2 | 3 | 4 | 5 | 6 => decide
    | t + 7 =>
        have hge : ¬ t + 7 < tied.nextToken := Nat.not_lt.mpr (Nat.le_add_left 7 t)
        exact iff_of_false (by simp) fun h => hge h.1
  rintro c (rfl | rfl)
  · exact ⟨_, _, 3, rfl, rfl, .process 1 3 (by simp) (by decide) rfl⟩
  · exact ⟨_, _, 4, rfl, rfl, .allOf 0 4 5 [5, 6] rfl rfl hts (by simp)
      (.process 0 5 (by simp) (by decide) rfl)⟩

end knot

theorem deadlock_lasts_knot : (knot.idle.coros 0).status = (knot.tied.coros 0).status :=
  deadlock_lasts knot.tied_reachable knot.tied_deadlocked
    ((Transition.Runs.refl _).tail knot.idle_free knot.idle_step) (.inl rfl)

/-- A third process is bound afterwards, wakes an event, and ends. -/
def knot.woken : State knot :=
  knot.idle.after State.exceptionFree
    [.bind (.call .wakes {}), .step 7, .exec 2, .exec 2, .step 8]

theorem unfinished_forever_knot :
    7 ∈ knot.woken.executed ∧ 8 ∈ knot.woken.executed ∧
      ∀ c < 2, (knot.woken.coros c).status = (knot.idle.coros c).status := by
  have hruns : Transition.Runs Step ExceptionFree knot.idle knot.woken :=
    State.after_runs State.exceptionFree_spec _ _
  refine ⟨by decide +kernel, by decide +kernel, fun c hc => ?_⟩
  refine unfinished_forever knot.idle_reachable knot.idle_shared knot.idle_rest (fun _ => rfl)
    hruns ?_
  match c with
  | 0 | 1 => exact ⟨rfl, rfl⟩

end Cxxdes
