-- SUMMARY: At most one body runs, that of the current process, and its steps leave the other processes alone.
import Cxxdes.Run.Wiring

/-!
# The running body

As long as no body calls a `step()` that resumes a process, the body that runs is that of the
process `current_coroutine()`. This also holds in runs with exceptions and with `reset`.
-/

namespace Cxxdes

variable {P : Program} {s s' : State P}

/-- A body that runs is that of the current process. -/
def State.Sole (s : State P) : Prop :=
  ∀ c f, (s.coros c).status = .running f → s.current = some c

/-- `step()` resumes a process when it executes token `t`. -/
def State.Resumes (s : State P) (t : TokenId) : Prop :=
  (s.tokens t).handler = none ∧ (s.tokens t).coroData ≠ none

namespace State.Sole

/-- While the body of `c` runs no other body does. -/
theorem only (h : s.Sole) {c c' : CoroId} {f g : P.Frame}
    (hst : (s.coros c).status = .running f) (hg : (s.coros c').status = .running g) : c' = c := by
  have h1 := h c' g hg
  rw [h c f hst] at h1
  exact (Option.some.inj h1).symm

/-- The body of `c` runs on, or begins to run while no other body does. -/
theorem update {c : CoroId} {d : CoroData P}
    (hco : s'.coros = Function.update s.coros c d) (hcur : s'.current = some c)
    (honly : ∀ c' g, (s.coros c').status = .running g → c' = c) : s'.Sole := by
  intro c' g hg
  rw [hco] at hg
  by_cases hc : c' = c
  · rw [hc, hcur]
  · rw [Function.update_of_ne hc] at hg
    exact absurd (honly c' g hg) hc

/-- The body of `c`, which was running, does not run any more. -/
theorem leave {c : CoroId} {d : CoroData P}
    (hco : s'.coros = Function.update s.coros c d) (hd : ∀ g, d.status ≠ .running g)
    (honly : ∀ c' g, (s.coros c').status = .running g → c' = c) : s'.Sole := by
  intro c' g hg
  rw [hco] at hg
  by_cases hc : c' = c
  · subst hc
    rw [Function.update_self] at hg
    exact absurd hg (hd g)
  · rw [Function.update_of_ne hc] at hg
    exact absurd (honly c' g hg) hc

theorem edits {cd : Option CoroId} {n : TokenId} {nn : Prop} (h : s.Sole)
    (he : Edits cd n nn s s') : s'.Sole := fun c f hf =>
  he.ext.current.trans (h c f (he.running_old hf))

theorem stepped {t : TokenId} (h : s.Sole) (hcur : s.Resumes t → s.current = none)
    (hst : Stepped s t s') : s'.Sole := by
  have hidle : s.Resumes t → ∀ c f, (s.coros c).status ≠ .running f := by
    intro hres c f hf
    have h1 := h c f hf
    rw [hcur hres] at h1
    cases h1
  cases hst with
  | start c f hh hc hst =>
      have hres : s.Resumes t := ⟨hh, by rw [hc]; exact nofun⟩
      exact update (s := s) (d := { s.coros c with status := .running f }) rfl rfl
        fun c' g hg => absurd hg (hidle hres c' g)
  | resume c a k r s1 hh hc hst hr =>
      have hres : s.Resumes t := ⟨hh, by rw [hc]; exact nofun⟩
      have he : Edits none 0 False { s.pop t with current := some c } s1 := awaitResume_edits_of hr
      exact update (s := s1) (d := { s1.coros c with status := .running (k r) }) rfl
        he.ext.current fun c' g hg => absurd (he.running_old hg) (hidle hres c' g)
  | rethrow | fire | count | raise | skip => exact h

theorem ran {nn : Prop} {c : CoroId} {f : P.Frame} {act : Action P.User P.Frame P.Value P.Error}
    (h : s.Sole) (hst : (s.coros c).status = .running f) (hr : Ran nn s c act s') : s'.Sole := by
  have honly : ∀ c' g, (s.coros c').status = .running g → c' = c := fun _ _ hg => h.only hst hg
  have hcur := h c f hst
  cases hr with
  | continues s1 _ he hcont =>
      obtain ⟨g, hco⟩ := hcont.coros
      exact update hco (hcont.current.trans (he.ext.current.trans hcur))
        fun c' g hg => honly c' g (he.running_old hg)
  | throws a k sm s1 _ hact ht hm he hcont =>
      obtain ⟨g, hco⟩ := hcont.coros
      exact update hco (hcont.current.trans (he.ext.current.trans (hm.ext.current.trans hcur)))
        fun c' g hg => honly c' g (hm.running_old (he.running_old hg))
  | suspends a a' k sm s1 hact hm he =>
      exact leave (suspend_coros s1 c a' k) (by simp)
        fun c' g hg => honly c' g (hm.running_old (he.running_old hg))
  | returns v =>
      rw [State.doReturn_eq]
      let s1 := s.setCoro c { s.coros c with returnValue := v }
      let d := { s1.coros c with completionTokens := [], status := .finished }
      have honly1 : ∀ c' g, (s1.coros c').status = .running g → c' = c := by
        intro c' g hg
        by_contra hc
        exact hc (honly c' g (by simpa [s1, State.setCoro, Function.update_of_ne hc] using hg))
      exact leave (s := s1) (d := d) rfl (by simp [d]) honly1
  | fails e =>
      rw [State.doReturn_eq, State.propagateException_eq]
      let d := { s.coros c with completionTokens := [], status := .finished }
      exact leave (s := s) (d := d) rfl (by simp [d]) honly

end State.Sole

theorem Step.sole {l : Label P} (hstep : Step s l s') (hs : s.Tidy False)
    (hl : ∀ t, l = .step t → s.Resumes t → s.current = none) (h : s.Sole) : s'.Sole := by
  cases hstep with
  | call f o =>
      have he : Edits none 0 False s (s.newCoro (.user (P.start f)) o) :=
        .single (.newCoro _ o (.user f) (fun hf => hf.elim))
      exact h.edits he
  | bind a =>
      have he : Edits none 0 False s (s.bind a) := bind_call_edits hs a (fun hf => hf.elim)
      exact h.edits he
  | elsewhere c henv =>
      intro c' f hf
      by_cases hc : c' = c
      · subst hc
        exact h c' f (by simpa [State.setCoro] using hf)
      · exact h c' f (by simpa [State.setCoro, Function.update_of_ne hc] using hf)
  | step t _ htop hst => exact h.stepped (hl t rfl) (step_stepped hst)
  | advance deadline => exact h
  | exec c _ hex =>
      obtain ⟨f, hst, hran⟩ := exec_ran hs hex fun _ _ hf => hf.elim
      have h1 : (s.ran f).Sole := h
      exact h1.ran hst hran
  | reset hcur hrun =>
      intro c f hf
      unfold State.reset at hf
      rw [State.destroyAll_eq] at hf
      by_cases hc : c ∈ s.managed
      · simp [hc] at hf
      · simp only [hc, if_false] at hf
        exact absurd hf (hrun c f)

theorem Reachable.sole {C : State P → Label P → Prop} (h : Reachable C s)
    (hC : ∀ s t, C s (.step t) → s.Resumes t → s.current = none) : s.Sole := by
  obtain ⟨m, h⟩ := h
  have hboth : s.Tidy False ∧ s.Sole := by
    refine h.invariant (I := fun s => s.Tidy False ∧ s.Sole) ?_ ?_
    · rintro s l s' ⟨hs, hsole⟩ hc hstep
      exact ⟨hstep.tidy (by simp) hs, hstep.sole hs (fun t ht => hC s t (ht ▸ hc)) hsole⟩
    · exact ⟨⟨fun _ _ => rfl, by simp⟩, fun c f hf => by cases hf⟩
  exact hboth.2

/-! ### The rest of an environment -/

/-- What a step of process `c` leaves alone: the pending tokens, whom tokens name, and
where the other processes are. -/
structure Others (c : CoroId) (s s' : State P) : Prop where
  queue : ∀ t ∈ s.queue, t ∈ s'.queue
  token : ∀ t < s.nextToken, (s'.tokens t).coroData = (s.tokens t).coroData ∧
    (s'.tokens t).handler = (s.tokens t).handler
  status : ∀ c' ≠ c, c' < s.nextCoro → (s'.coros c').status = (s.coros c').status
  suspended : ∀ c' a k, c' ≠ c → (s'.coros c').status = .suspended a k →
    (s.coros c').status = .suspended a k

theorem Others.edits {s s' : State P} {cd : Option CoroId} {n : TokenId}
    {nn : Prop} (hn : s.nextToken ≤ n) (he : Edits cd n nn s s') (c : CoroId) :
    Others c s s' where
  queue := he.ext.queue
  token t ht := by
    obtain ⟨h1, h2, -⟩ := he.ext.tokenFields t (Nat.lt_of_lt_of_le ht hn) ht
    exact ⟨h2, h1⟩
  status c' _ hlt := (he.ext.coro c' hlt).status
  suspended c' a k _ hst := he.status_old (by simp) hst

theorem Others.trans {c : CoroId} {s s' s'' : State P} (h : Others c s s')
    (h' : Others c s' s'') (hn : s.nextToken ≤ s'.nextToken) (hc : s.nextCoro ≤ s'.nextCoro) :
    Others c s s'' where
  queue t ht := h'.queue t (h.queue t ht)
  token t ht := by
    obtain ⟨h1, h2⟩ := h.token t ht
    obtain ⟨h3, h4⟩ := h'.token t (Nat.lt_of_lt_of_le ht hn)
    exact ⟨h3.trans h1, h4.trans h2⟩
  status c' hne hlt := (h'.status c' hne (Nat.lt_of_lt_of_le hlt hc)).trans (h.status c' hne hlt)
  suspended c' a k hne hst := h.suspended c' a k hne (h'.suspended c' a k hne hst)

/-- A change of the process `c` itself. -/
theorem Others.update {c : CoroId} {d : CoroData P} {s s' : State P}
    (hq : ∀ t ∈ s.queue, t ∈ s'.queue)
    (htok : ∀ t, (s'.tokens t).coroData = (s.tokens t).coroData ∧
      (s'.tokens t).handler = (s.tokens t).handler)
    (hco : s'.coros = Function.update s.coros c d) : Others c s s' where
  queue := hq
  token t _ := htok t
  status c' hne _ := by rw [hco, Function.update_of_ne hne]
  suspended c' a k hne hst := by rwa [hco, Function.update_of_ne hne] at hst

theorem Others.quiet {c : CoroId} {d : CoroData P} {s s' : State P}
    (hq : Quiet s s') (hco : s'.coros = Function.update s.coros c d) : Others c s s' :=
  .update (fun t ht => by rw [hq.queue]; exact ht) (fun t => by rw [hq.tokens]; exact ⟨rfl, rfl⟩)
    hco

theorem Others.doReturn (s : State P) (c : CoroId) (r : Result P.Value P.Error) :
    Others c s (s.doReturn c r) := by
  refine .update (d := { s.coros c with completionTokens := [], status := .finished })
    (fun t ht => ?_) (fun t => ?_) ?_
  · rw [State.doReturn_eq]
    simp [ht]
  · exact ⟨(doReturn_fields s c r t).2, (doReturn_fields s c r t).1⟩
  · rw [State.doReturn_eq]

theorem Ran.others {s s' : State P} {nn : Prop} {c : CoroId}
    {act : Action P.User P.Frame P.Value P.Error} (h : Ran nn s c act s') : Others c s s' := by
  cases h with
  | continues s1 _ he hc =>
      obtain ⟨f, hco⟩ := hc.coros
      exact (Others.edits (Nat.le_refl _) he c).trans (.quiet hc.quiet hco) he.ext.nextToken
        he.ext.nextCoro
  | throws a k sm s1 _ hact hthrow hm he hc =>
      obtain ⟨f, hco⟩ := hc.coros
      have h1 := (Others.edits (Nat.le_refl _) hm c).trans (.edits (Nat.le_refl _) he c)
        hm.ext.nextToken hm.ext.nextCoro
      exact h1.trans (.quiet hc.quiet hco) (hm.ext.nextToken.trans he.ext.nextToken)
        (hm.ext.nextCoro.trans he.ext.nextCoro)
  | suspends a a' k sm s1 hact hm he =>
      have h1 := (Others.edits (Nat.le_refl _) hm c).trans (.edits (Nat.le_refl _) he c)
        hm.ext.nextToken hm.ext.nextCoro
      exact h1.trans (.quiet (.suspend s1 c a' k) (suspend_coros s1 c a' k))
        (hm.ext.nextToken.trans he.ext.nextToken) (hm.ext.nextCoro.trans he.ext.nextCoro)
  | returns v =>
      have h1 : Others c s (s.setCoro c { s.coros c with returnValue := v }) :=
        .update (fun _ ht => ht) (fun _ => ⟨rfl, rfl⟩) rfl
      exact h1.trans (.doReturn _ c _) (Nat.le_refl _) (Nat.le_refl _)
  | fails e =>
      have h1 : Others c s (s.propagateException c e) := by
        refine .update (d := s.coros c) (fun t ht => ?_) (fun t => ?_) ?_
        · rw [State.propagateException_eq]; exact ht
        · exact ⟨(propagateException_fields s c e t).2, (propagateException_fields s c e t).1⟩
        · rw [State.propagateException_eq, Function.update_eq_self]
      have hn : (s.propagateException c e).nextToken = s.nextToken := by
        rw [State.propagateException_eq]
      have hc : (s.propagateException c e).nextCoro = s.nextCoro := by
        rw [State.propagateException_eq]
      exact h1.trans (.doReturn _ c _) (Nat.le_of_eq hn.symm) (Nat.le_of_eq hc.symm)

/-- A body is suspended by its `co_await` only. -/
theorem Ran.suspended {s s' : State P} {nn : Prop} {c : CoroId}
    {act : Action P.User P.Frame P.Value P.Error} (h : Ran nn s c act s') {a : Awaitable P.User}
    {k : Result P.Value P.Error → P.Frame} (hst : (s'.coros c).status = .suspended a k) :
    ∃ a0, act = .await a0 k := by
  cases h with
  | continues s1 _ he hc =>
      obtain ⟨f, hco⟩ := hc.coros
      rw [hco, Function.update_self] at hst
      cases hst
  | throws a k sm s1 _ hact hthrow hm he hc =>
      obtain ⟨f, hco⟩ := hc.coros
      rw [hco, Function.update_self] at hst
      cases hst
  | suspends a0 a' k' sm s1 hact =>
      rw [suspend_coros, Function.update_self] at hst
      cases hst
      exact ⟨a0, hact⟩
  | returns v =>
      rw [State.doReturn_eq] at hst
      simp at hst
  | fails e =>
      rw [State.doReturn_eq] at hst
      simp at hst

/-- Only the body itself writes the memory. -/
theorem Acted.memory {c : CoroId} {act : Action P.User P.Frame P.Value P.Error}
    (h : Acted s c act s') (hs : s.Tidy False) : s'.memory = s.memory := by
  cases h with
  | tau | create | declare | move | moved => rfl
  | await a k =>
      rcases coAwait_cases hs c (a := a) k (fun hf => hf.elim) with
        ⟨s1, tgt, r, he, hc⟩ | ⟨sm, s1, tgt, e, hm, he, hthrow, hc⟩ |
        ⟨sm, s1, a', hm, he, href, htkn, hlt, hcr, hc⟩
      · rw [hc]
        exact he.ext.memory
      · rw [hc]
        exact he.ext.memory.trans hm.ext.memory
      · rw [hc]
        have hsus : (s1.suspend c a' k).memory = s1.memory := by
          unfold State.suspend
          split <;> rfl
        exact hsus.trans (he.ext.memory.trans hm.ext.memory)
  | bind p k s1 hr =>
      have he : Edits none 0 False s _ := detach_edits hs.fresh p 0 (fun hf => hf.elim)
      rw [hr] at he
      exact he.ext.memory
  | bindError p k e s1 hr =>
      have he : Edits none 0 False s _ := detach_edits hs.fresh p 0 (fun hf => hf.elim)
      rw [hr] at he
      exact he.ext.memory
  | returns v =>
      rw [State.doReturn_eq]
      simp [State.setCoro]
  | fails e =>
      rw [State.doReturn_eq, State.propagateException_eq]
      simp

end Cxxdes
