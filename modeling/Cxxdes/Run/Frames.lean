-- SUMMARY: What is true of the bodies of all coroutine functions is true of every coroutine of an environment.
import Cxxdes.Run.Cases

/-!
# Invariants of bodies

A coroutine starts at the beginning of a coroutine function and goes on only from
what its own body asked for. So a property of frames that holds at the beginning
and is kept by `Frame.next` holds of every frame in every run.
-/

namespace Cxxdes

variable {P : Program} {J : P.Frame → Prop} {s s' : State P}

/-- `J` holds at the beginning of coroutine functions and wherever their bodies go. -/
structure Frame.Closed (J : P.Frame → Prop) : Prop where
  starts : ∀ f, f.Starts → J f
  next : ∀ f m now, J f → (f.next m now).2.All J

def Status.All (J : P.Frame → Prop) : Status P → Prop
  | .initial f => J f
  | .running f => J f
  | .suspended _ k => ∀ r, J (k r)
  | .finished => True

def State.Frames (J : P.Frame → Prop) (s : State P) : Prop :=
  ∀ c, (s.coros c).status.All J

namespace State.Frames

theorem congr (h : s.Frames J) (hco : s'.coros = s.coros) : s'.Frames J := by
  intro c
  rw [hco]
  exact h c

theorem update (h : s.Frames J) {c : CoroId} {d : CoroData P} (hd : d.status.All J)
    (hco : s'.coros = Function.update s.coros c d) : s'.Frames J := by
  intro c'
  rw [hco]
  by_cases hc : c' = c
  · subst hc; rw [Function.update_self]; exact hd
  · rw [Function.update_of_ne hc]; exact h c'

theorem edit {cd : Option CoroId} {n : TokenId} {nn : Prop} (h : s.Frames J)
    (hJ : ∀ f, f.Starts → J f) (he : Edit cd n nn s s') : s'.Frames J := by
  cases he with
  | newCoro f o hf => exact h.update (c := s.nextCoro) (d := .called f o) (hJ f hf) rfl
  | startCoro c priority =>
      exact h.update (d := (s.coros c).started s.current
        (resolvePriority (s.coros c).priority priority) s.nextToken) (h c) rfl
  | newCompletion p cd' =>
      exact h.update (d := (s.coros p.coro).completionToken s.nextToken) (h p.coro) rfl
  | wake evt => exact h.congr (by simp [State.wake])
  | timeout | newWaiter | newHandler | install | setObject => exact h

theorem edits {cd : Option CoroId} {n : TokenId} {nn : Prop} (h : s.Frames J)
    (hJ : ∀ f, f.Starts → J f) (he : Edits cd n nn s s') : s'.Frames J :=
  he.invariant (fun _ _ h he => h.edit hJ he) h

theorem doReturn (h : s.Frames J) (c : CoroId) (r : Result P.Value P.Error) :
    (s.doReturn c r).Frames J := by
  rw [State.doReturn_eq]
  exact h.update (d := { s.coros c with completionTokens := [], status := .finished }) trivial rfl

theorem stepped {t : TokenId} (h : s.Frames J) (hJ : Frame.Closed J) (hs : s.Tidy False)
    (hst : Stepped s t s') : s'.Frames J := by
  cases hst with
  | start c f hh hc hst =>
      have hf := h c
      rw [hst] at hf
      exact h.update (c := c) (d := { s.coros c with status := .running f }) hf rfl
  | resume c a k r s1 hh hc hst hr =>
      have he : Edits none 0 False { s.pop t with current := some c } s1 := awaitResume_edits_of hr
      have hlt := hs.fresh.lt_of_status (c := c) (by simp [hst])
      have h0 : State.Frames J { s.pop t with current := some c } := h
      have h1 : s1.Frames J := h0.edits hJ.starts he
      have hf := h c
      rw [hst] at hf
      exact h1.update (c := c) (d := { s1.coros c with status := .running (k r) }) (hf r) rfl
  | rethrow | fire | count | raise | skip => exact h

theorem acted {c : CoroId} {act : Action P.User P.Frame P.Value P.Error} (h : s.Frames J)
    (hJ : ∀ f, f.Starts → J f) (hs : s.Tidy False) (hall : act.All J) (hact : Acted s c act s') :
    s'.Frames J := by
  have hrun : ∀ {s1 : State P} {f}, s1.Frames J → J f → (s1.setStatus c (.running f)).Frames J :=
    fun h1 hf => h1.update (by exact hf) rfl
  have hdel : ∀ {s1 : State P} {tgt k r}, s1.Frames J → J (k r) → (s1.deliver c tgt k r).Frames J :=
    fun h1 hf => h1.update (by exact hf) rfl
  cases hact with
  | tau f => exact hrun h hall
  | await a k =>
      rcases coAwait_cases hs c (a := a) k (fun hf => hf.elim) with
        ⟨s1, tgt, r, he, hc⟩ | ⟨sm, s1, tgt, e, hm, he, hthrow, hc⟩ |
        ⟨sm, s1, a', hm, he, href, htkn, hlt, hcr, hc⟩
      · rw [hc]
        exact hdel (h.edits hJ he) (hall r)
      · rw [hc]
        exact hdel ((h.edits hJ hm).edits hJ he) (hall _)
      · rw [hc]
        have h1 := (h.edits hJ hm).edits hJ he
        refine h1.update (c := c) (d := { s1.coros c with status := .suspended a' k }) hall ?_
        exact suspend_coros s1 c a' k
  | create g o k =>
      have he : Edit none 0 False s (s.newCoro (.user (P.start g)) o) :=
        .newCoro _ o (.user g) (fun hf => hf.elim)
      exact hrun (h.edit hJ he) (hall _)
  | declare p k =>
      have h1 : (s.newObject p).Frames J := h
      exact hrun h1 (hall _)
  | move o k p =>
      have h1 : (s.moveObject o).Frames J := h
      exact hrun h1 (hall _)
  | moved o k r =>
      have h1 : (s.moveObject o).Frames J := h
      exact hdel h1 (hall _)
  | bind p k s1 hr =>
      have he : Edits none 0 False s _ := detach_edits hs.fresh p 0 (fun hf => hf.elim)
      rw [hr] at he
      exact hrun (h.edits hJ he) (hall _)
  | bindError p k e s1 hr =>
      have he : Edits none 0 False s _ := detach_edits hs.fresh p 0 (fun hf => hf.elim)
      rw [hr] at he
      exact hrun (h.edits hJ he) (hall _)
  | returns v =>
      have h1 : (s.setCoro c { s.coros c with returnValue := v }).Frames J :=
        h.update (d := { s.coros c with returnValue := v }) (h c) rfl
      exact h1.doReturn c _
  | fails e =>
      have h1 : (s.propagateException c e).Frames J := by
        rw [State.propagateException_eq]
        exact h
      exact h1.doReturn c _

end State.Frames

theorem Step.frames {l : Label P} (hstep : Step s l s') (hJ : Frame.Closed J) (hs : s.Tidy False)
    (h : s.Frames J) : s'.Frames J := by
  cases hstep with
  | call f o =>
      have he : Edit none 0 False s (s.newCoro (.user (P.start f)) o) :=
        .newCoro _ o (.user f) (fun hf => hf.elim)
      exact h.edit hJ.starts he
  | bind a =>
      have he : Edits none 0 False s (s.bind a) := bind_call_edits hs a (fun hf => hf.elim)
      exact h.edits hJ.starts he
  | elsewhere c henv => exact h.update (d := { s.coros c with env := .elsewhere }) (h c) rfl
  | step t _ htop hst => exact h.stepped hJ hs (step_stepped hst)
  | advance deadline => exact h
  | exec c _ hex =>
      obtain ⟨f, hst, hact⟩ := exec_acted hex
      have hf := h c
      rw [hst] at hf
      exact State.Frames.acted (s := s.ran f) h hJ.starts ⟨hs.fresh, hs.object⟩
        (hJ.next f s.memory s.now hf) hact
  | reset =>
      unfold State.reset
      rw [State.destroyAll_eq]
      intro c
      by_cases hc : c ∈ s.managed
      · simp only [hc, if_true]; trivial
      · simp only [hc, if_false]; exact h c

theorem Reachable.frames {C : State P → Label P → Prop} (h : Reachable C s)
    (hJ : Frame.Closed J) : s.Frames J := by
  obtain ⟨m, h⟩ := h
  have hboth : s.Tidy False ∧ s.Frames J :=
    h.invariant (I := fun s => s.Tidy False ∧ s.Frames J)
      (fun _ _ _ ⟨hs, hf⟩ _ hstep => ⟨hstep.tidy (by simp) hs, hstep.frames hJ hs hf⟩)
      ⟨⟨fun _ _ => rfl, by simp⟩, fun _ => trivial⟩
  exact hboth.2

end Cxxdes
