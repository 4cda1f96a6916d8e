-- SUMMARY: Only processes that were bound to the environment are named by tokens or have a body that has begun.
import Cxxdes.Run.Order

/-!
# Started processes

A token names a process only after it has been bound, so a body begins only in
a process that was bound. This holds in all runs, also with re-entrant steps and
resets.
-/

namespace Cxxdes

variable {P : Program} {s s' : State P}

structure Started (s : State P) : Prop where
  token : ∀ t c, (s.tokens t).coroData = some c → (s.coros c).env = .here
  current : ∀ c, s.current = some c → (s.coros c).env = .here
  begun : ∀ c, (s.coros c).env ≠ .here →
    (s.coros c).status = .finished ∨ ∃ f, (s.coros c).status = .initial f

namespace Started

/-- What the invariant depends on. -/
theorem congr (h : Started s)
    (htok : ∀ t, (s'.tokens t).coroData = none ∨
      ∃ u, (s'.tokens t).coroData = (s.tokens u).coroData)
    (hcur : s'.current = none ∨ s'.current = s.current)
    (henv : ∀ c, (s.coros c).env = .here → (s'.coros c).env = .here)
    (hst : ∀ c, (s'.coros c).env ≠ .here → (s'.coros c).status = .finished ∨
      (s'.coros c).status = (s.coros c).status ∨ ∃ f, (s'.coros c).status = .initial f) :
    Started s' where
  token t c ht := by
    rcases htok t with h0 | ⟨u, hu⟩
    · rw [h0] at ht; cases ht
    · exact henv c (h.token u c (hu ▸ ht))
  current c hc := by
    rcases hcur with h0 | h0
    · rw [h0] at hc; cases hc
    · exact henv c (h.current c (h0 ▸ hc))
  begun c hne := by
    rcases hst c hne with h0 | h0 | h0
    · exact .inl h0
    · rw [h0]; exact h.begun c fun he => hne (henv c he)
    · exact .inr h0

/-- A new token that names nobody or a bound process. -/
theorem newToken (h : Started s) (tkn : Token P.Error)
    (ht : ∀ c, tkn.coroData = some c → (s.coros c).env = .here) : Started (s.newToken tkn) where
  token t c htc := by
    by_cases hne : t = s.nextToken
    · subst hne; exact ht c (by simpa [State.newToken] using htc)
    · exact h.token t c (by simpa [State.newToken, Function.update_of_ne hne] using htc)
  current := h.current
  begun := h.begun

/-- A process may change, but not its binding. -/
theorem setCoro (h : Started s) {c : CoroId} {d : CoroData P}
    (hd : (s.coros c).env = .here → d.env = .here)
    (hst : d.env ≠ .here → d.status = .finished ∨ d.status = (s.coros c).status ∨
      ∃ f, d.status = .initial f) : Started (s.setCoro c d) := by
  refine h.congr (fun t => .inr ⟨t, rfl⟩) (.inr rfl) (fun c' he => ?_) fun c' hne => ?_
  · by_cases hc : c' = c
    · subst hc; simpa [State.setCoro] using hd he
    · simpa [State.setCoro, Function.update_of_ne hc] using he
  · by_cases hc : c' = c
    · subst hc; simpa [State.setCoro] using hst (by simpa [State.setCoro] using hne)
    · exact .inr (.inl (by simp [State.setCoro, Function.update_of_ne hc]))

theorem edit {cd : Option CoroId} {n : TokenId} {nn : Prop} (h : Started s) (hf : s.Fresh)
    (hcd : ∀ c, cd = some c → (s.coros c).env = .here) (he : Edit cd n nn s s') :
    Started s' ∧ ∀ c, cd = some c → (s'.coros c).env = .here := by
  have hkeep : ∀ c, (s.coros c).env = .here → (s'.coros c).env = .here := fun c hc =>
    (((he.ext.coro c (hf.lt (by simp [hc]))).bound (by simp [hc])).1).trans hc
  refine ⟨?_, fun c hc => hkeep c (hcd c hc)⟩
  cases he with
  | newCoro f o =>
      have h1 := h.setCoro (c := s.nextCoro) (d := .called f o)
        (fun hc => by rw [hf _ (Nat.le_refl _)] at hc; cases hc) fun _ => .inr (.inr ⟨f, rfl⟩)
      exact ⟨h1.token, h1.current, h1.begun⟩
  | startCoro c priority henv =>
      have h1 := h.setCoro (c := c) (d := (s.coros c).started s.current
        (resolvePriority (s.coros c).priority priority) s.nextToken) (fun _ => rfl)
        fun hne => absurd rfl hne
      have h2 := h1.newToken ⟨s.now + (s.coros c).latency,
        resolvePriority (s.coros c).priority priority, some c, none, none⟩ fun c' hc' => by
          cases hc'
          simp [State.setCoro, CoroData.started]
      exact ⟨h2.token, h2.current, h2.begun⟩
  | newCompletion p cd' hor henv =>
      have h1 := h.newToken ⟨p.retLatency, s.returnPriority p, cd', none, none⟩ fun c hc => by
        rcases hor with rfl | rfl
        · cases hc
        · exact hcd c hc
      exact h1.setCoro (c := p.coro) (fun hc => hc) fun _ => .inr (.inl rfl)
  | timeout time priority =>
      have h1 := h.newToken ⟨time, priority, cd, none, none⟩ hcd
      exact ⟨h1.token, h1.current, h1.begun⟩
  | newWaiter evt latency priority =>
      have h1 := h.newToken ⟨latency, priority, cd, none, none⟩ hcd
      exact ⟨h1.token, h1.current, h1.begun⟩
  | newHandler c total =>
      have h1 := h.newToken ⟨c.latency, c.priority, cd, none, none⟩ hcd
      exact ⟨h1.token, h1.current, h1.begun⟩
  | install t i =>
      refine ⟨fun u c hu => h.token u c ?_, h.current, h.begun⟩
      by_cases hut : u = t
      · subst hut; simpa [State.install, State.setToken] using hu
      · simpa [State.install, State.setToken, Function.update_of_ne hut] using hu
  | wake evt =>
      refine h.congr (fun t => .inr ⟨t, (s.releaseAll_fields (s.events evt) t).2.1⟩) ?_ hkeep ?_
      · exact .inr (by simp [State.wake])
      · exact fun c _ => .inr (.inl (by simp [State.wake]))
  | setObject o tkn => exact ⟨h.token, h.current, h.begun⟩

theorem edits {cd : Option CoroId} {n : TokenId} {nn : Prop} (h : Started s) (hs : s.Tidy nn)
    (hcd : ∀ c, cd = some c → (s.coros c).env = .here) (he : Edits cd n nn s s') :
    Started s' := by
  have hall : s'.Fresh ∧ Started s' ∧ ∀ c, cd = some c → (s'.coros c).env = .here :=
    he.invariant
      (I := fun s => s.Fresh ∧ Started s ∧ ∀ c, cd = some c → (s.coros c).env = .here)
      (fun _ _ ⟨hf, h, hcd⟩ he => ⟨he.fresh hf, h.edit hf hcd he⟩) ⟨hs.fresh, h, hcd⟩
  exact hall.2.1

/-- A process whose body has begun was bound. -/
theorem env_of_running (h : Started s) {c : CoroId} {f : P.Frame}
    (hst : (s.coros c).status = .running f) : (s.coros c).env = .here := by
  refine Decidable.byContradiction fun hne => ?_
  rcases h.begun c hne with h1 | ⟨g, h1⟩ <;> rw [hst] at h1 <;> cases h1

/-- A quiet change in which at most the process `c`, which is bound, changes. -/
theorem update (h : Started s) (hq : Quiet s s') {c : CoroId} {d : CoroData P}
    (hd : d.env = .here)
    (hco : s'.coros = Function.update s.coros c d)
    (hcur : ∀ c, s'.current = some c → (s'.coros c).env = .here) : Started s' := by
  have h1 := h.setCoro (c := c) (d := d) (fun _ => hd) fun hne => absurd hd hne
  refine ⟨fun t c' ht => ?_, hcur, ?_⟩
  · rw [hq.tokens] at ht
    rw [hco]
    exact h1.token t c' ht
  · rw [hco]; exact h1.begun

theorem continues {nn : Prop} {c : CoroId} (h : Started s) (hc : (s.coros c).env = .here)
    (hcont : Continues nn c s s') : Started s' := by
  obtain ⟨g, hco⟩ := hcont.coros
  refine h.update hcont.quiet (d := { s.coros c with status := .running g }) hc hco fun c' hc' => ?_
  rw [hcont.current] at hc'
  rw [hco]
  by_cases hcc : c' = c
  · subst hcc; simpa using hc
  · rw [Function.update_of_ne hcc]; exact h.current c' hc'

theorem doReturn (h : Started s) {c : CoroId} (hc : (s.coros c).env = .here)
    (r : Result P.Value P.Error) : Started (s.doReturn c r) := by
  rw [State.doReturn_eq]
  have h1 := h.setCoro (c := c)
    (d := { s.coros c with completionTokens := [], status := .finished }) (fun _ => hc)
    fun _ => .inl rfl
  refine ⟨fun t c' ht => ?_, fun c' hc' => (by cases hc'), h1.begun⟩
  exact h1.token t c' ((s.releaseAll_fields (s.coros c).completionTokens t).2.1.symm.trans ht)

theorem stepped {t : TokenId} (h : Started s) (hs : s.Tidy False) (hst : Stepped s t s') :
    Started s' := by
  have hp : Started (s.pop t) := ⟨h.token, h.current, h.begun⟩
  cases hst with
  | rethrow i e => exact ⟨hp.token, hp.current, hp.begun⟩
  | fire i out =>
      refine hp.congr (fun u => ?_) (.inr rfl) (fun _ hc => hc) fun _ _ => .inr (.inl rfl)
      by_cases hu : u = out
      · subst hu
        exact .inr ⟨t, by simp [State.fire, State.scheduleToken, State.setToken,
          State.outputToken, State.setHandler]⟩
      · exact .inr ⟨u, by simp [State.fire, State.scheduleToken, State.setToken,
          State.setHandler, Function.update_of_ne hu]⟩
  | count i => exact ⟨hp.token, hp.current, hp.begun⟩
  | start c f hh hc hst =>
      have hq : Quiet (s.pop t) { s.pop t with current := some c } := .of_coros rfl
      have henv := h.token t c hc
      refine hp.update (c := c) (d := { s.coros c with status := .running f })
        ((hq.trans (.setStatus _ c _)).trans (.of_coros rfl)) henv rfl fun c' hc' => ?_
      cases hc'
      simpa [State.log, State.setStatus, State.setCoro, State.pop] using henv
  | resume c a k r s1 hh hc hst hr =>
      have henv := h.token t c hc
      have h0 : Started { s.pop t with current := some c } :=
        ⟨hp.token, fun c' hc' => (by cases hc'; exact henv), hp.begun⟩
      have he : Edits none 0 False { s.pop t with current := some c } s1 := awaitResume_edits_of hr
      have h1 := h0.edits ⟨hs.fresh, by simp⟩ (by simp) he
      have henv1 : (s1.coros c).env = .here := h1.current c he.ext.current
      have hlog : Started (s1.log (.resumed c t (s.pop t).now)) := ⟨h1.token, h1.current, h1.begun⟩
      exact hlog.continues henv1 (.deliver False _ c a.target k r)
  | raise e => exact ⟨hp.token, hp.current, hp.begun⟩
  | skip => exact hp

theorem ran {nn : Prop} {c : CoroId} {f : P.Frame} {act : Action P.User P.Frame P.Value P.Error}
    (h : Started s) (hs : s.Tidy nn) (hst : (s.coros c).status = .running f)
    (hr : Ran nn s c act s') : Started s' := by
  have henv := h.env_of_running hst
  have hlt : c < s.nextCoro := hs.fresh.lt (by simp [henv])
  have hkeep : ∀ {cd n s1}, Edits cd n nn s s1 → (s1.coros c).env = .here := fun he =>
    ((he.ext.coro c hlt).bound (by simp [henv])).1.trans henv
  cases hr with
  | continues s1 _ he hcont => exact (h.edits hs (by simp) he).continues (hkeep he) hcont
  | throws a k sm s1 _ hact hthrow hm he hcont =>
      have hm1 := h.edits hs (by simp) hm
      have h1 := hm1.edits (Edits.tidy hm hs)
        (fun c' hc' => hm1.current c' (hm.ext.current.trans hc')) he
      have henv1 := ((he.ext.coro c (Nat.lt_of_lt_of_le hlt hm.ext.nextCoro)).bound
        (by simp [hkeep hm])).1.trans (hkeep hm)
      exact h1.continues henv1 hcont
  | suspends a a' k sm s1 hact hm he =>
      have hm1 := h.edits hs (by simp) hm
      have h1 := hm1.edits (Edits.tidy hm hs)
        (fun c' hc' => hm1.current c' (hm.ext.current.trans hc')) he
      have henv1 := ((he.ext.coro c (Nat.lt_of_lt_of_le hlt hm.ext.nextCoro)).bound
        (by simp [hkeep hm])).1.trans (hkeep hm)
      refine h1.update (.suspend s1 c a' k) (d := { s1.coros c with status := .suspended a' k })
        henv1 (by unfold State.suspend; split <;> rfl) fun c' hc' => ?_
      unfold State.suspend at hc'
      split at hc' <;> cases hc'
  | returns v =>
      have h1 := h.setCoro (c := c) (d := { s.coros c with returnValue := v }) (fun hc => hc)
        fun hne => absurd henv hne
      exact h1.doReturn (by simpa [State.setCoro] using henv) _
  | fails e =>
      rw [State.propagateException_eq]
      have h1 : Started { s with
          tokens := fun t =>
            if t ∈ (s.coros c).completionTokens then { s.tokens t with eptr := some e }
            else s.tokens t } :=
        h.congr (fun t => .inr ⟨t, by simp only; split <;> rfl⟩) (.inr rfl) (fun _ hc => hc)
          fun _ _ => .inr (.inl rfl)
      exact h1.doReturn henv _

end Started

theorem Step.started {l : Label P} (hstep : Step s l s') (hs : s.Tidy False) (h : Started s) :
    Started s' := by
  cases hstep with
  | call f o =>
      have he : Edits none 0 False s (s.newCoro (.user (P.start f)) o) :=
        .single (.newCoro _ o (.user f) (by simp))
      exact h.edits hs (by simp) he
  | bind a =>
      have he : Edits none 0 False s (s.bind a) := bind_call_edits hs a (by simp)
      exact h.edits hs (by simp) he
  | elsewhere c henv =>
      refine h.setCoro (fun hc => ?_) fun _ => .inr (.inl rfl)
      rw [henv] at hc
      cases hc
  | step t _ htop hst => exact h.stepped hs (step_stepped hst)
  | advance deadline => exact ⟨h.token, h.current, h.begun⟩
  | exec c _ hex =>
      obtain ⟨f, hst, hran⟩ := exec_ran hs hex fun _ _ hf => hf.elim
      exact Started.ran (s := s.ran f) ⟨h.token, h.current, h.begun⟩ ⟨hs.fresh, hs.object⟩ hst hran
  | reset =>
      unfold State.reset
      rw [State.destroyAll_eq]
      refine h.congr (fun t => .inr ⟨t, rfl⟩) (.inr rfl) (fun c hc => ?_) fun c _ => ?_
      · simp only
        split <;> exact hc
      · simp only
        split
        · exact .inl rfl
        · exact .inr (.inl rfl)

theorem Reachable.started {C : State P → Label P → Prop} (h : Reachable C s) : Started s := by
  obtain ⟨m, h⟩ := h
  have hboth : s.Tidy False ∧ Started s := by
    refine h.invariant (I := fun s => s.Tidy False ∧ Started s) ?_ ?_
    · exact fun s l s' ⟨hs, hst⟩ _ hstep => ⟨hstep.tidy (by simp) hs, hstep.started hs hst⟩
    · exact ⟨⟨fun _ _ => rfl, by simp⟩, fun _ _ ht => (by cases ht), fun _ hc => (by cases hc),
        fun _ _ => .inl rfl⟩
  exact hboth.2

/-! ### The managed set -/

/-- `coroutines_` are the processes that are bound and not complete, and only a bound
process has completion tokens. -/
structure Listed (s : State P) : Prop where
  bound : ∀ c ∈ s.managed, (s.coros c).env = .here
  managed : ∀ c, (s.coros c).env = .here → (s.coros c).complete = false → c ∈ s.managed
  silent : ∀ c, (s.coros c).env ≠ .here → (s.coros c).completionTokens = []

namespace Listed

theorem congr (h : Listed s) (hco : s'.coros = s.coros) (hm : s'.managed = s.managed) :
    Listed s' := by
  constructor
  · rw [hco, hm]; exact h.bound
  · rw [hco, hm]; exact h.managed
  · rw [hco]; exact h.silent

/-- At most the process `c` changes, and not in what the invariant says. -/
theorem update (h : Listed s) {c : CoroId} {d : CoroData P}
    (hco : s'.coros = Function.update s.coros c d) (hm : s'.managed = s.managed)
    (hkeep : (s.coros c).env = .here → d.env = .here)
    (hmem : d.env = .here → d.complete = false → c ∈ s.managed)
    (hsil : d.env ≠ .here → d.completionTokens = []) : Listed s' := by
  constructor
  · intro c' hc'
    rw [hm] at hc'
    rw [hco]
    by_cases hc : c' = c
    · subst hc; simpa using hkeep (h.bound c' hc')
    · rw [Function.update_of_ne hc]; exact h.bound c' hc'
  · intro c' henv hcomp
    rw [hm]
    rw [hco] at henv hcomp
    by_cases hc : c' = c
    · subst hc
      rw [Function.update_self] at henv hcomp
      exact hmem henv hcomp
    · rw [Function.update_of_ne hc] at henv hcomp
      exact h.managed c' henv hcomp
  · intro c' henv
    rw [hco] at henv ⊢
    by_cases hc : c' = c
    · subst hc
      rw [Function.update_self] at henv ⊢
      exact hsil henv
    · rw [Function.update_of_ne hc] at henv ⊢
      exact h.silent c' henv

/-- The status of a bound process that is not complete changes. -/
theorem setStatus (h : Listed s) {c : CoroId} (st : Status P) (henv : (s.coros c).env = .here)
    (hinc : (s.coros c).complete = false)
    (hco : s'.coros = Function.update s.coros c { s.coros c with status := st })
    (hm : s'.managed = s.managed) : Listed s' :=
  h.update hco hm (fun hc => hc) (fun _ _ => h.managed c henv hinc) fun hne => absurd henv hne

theorem edit {cd : Option CoroId} {n : TokenId} {nn : Prop} (h : Listed s) (hf : s.Fresh)
    (he : Edit cd n nn s s') : Listed s' := by
  cases he with
  | newCoro f o =>
      exact h.update (c := s.nextCoro) (d := .called f o) rfl rfl
        (fun hc => by rw [hf _ (Nat.le_refl _)] at hc; cases hc) (fun hc => by cases hc)
        fun _ => rfl
  | startCoro c priority henv =>
      let d := (s.coros c).started s.current (resolvePriority (s.coros c).priority priority)
        s.nextToken
      have h1 : Listed { s.setCoro c d with managed := c :: s.managed } := by
        constructor
        · intro c' hc'
          by_cases hc : c' = c
          · subst hc; simp [State.setCoro, d, CoroData.started]
          · simpa [State.setCoro, Function.update_of_ne hc] using
              h.bound c' ((List.mem_cons.mp hc').resolve_left hc)
        · intro c' henv' hcomp
          by_cases hc : c' = c
          · exact List.mem_cons.mpr (.inl hc)
          · simp only [State.setCoro, Function.update_of_ne hc] at henv' hcomp
            exact List.mem_cons_of_mem c (h.managed c' henv' hcomp)
        · intro c' henv'
          by_cases hc : c' = c
          · subst hc; simp [State.setCoro, d, CoroData.started] at henv'
          · simp only [State.setCoro, Function.update_of_ne hc] at henv' ⊢
            exact h.silent c' henv'
      exact h1.congr rfl rfl
  | newCompletion p cd' hcd henv hinc =>
      exact h.update (c := p.coro) (d := (s.coros p.coro).completionToken s.nextToken) rfl rfl
        (fun hc => hc) (fun _ _ => h.managed _ henv hinc) fun hne => absurd henv hne
  | wake evt => exact h.congr (by simp [State.wake]) (by simp [State.wake])
  | timeout | newWaiter | newHandler | install | setObject => exact h.congr rfl rfl

theorem edits {cd : Option CoroId} {n : TokenId} {nn : Prop} (h : Listed s) (hf : s.Fresh)
    (he : Edits cd n nn s s') : Listed s' := by
  have hall : s'.Fresh ∧ Listed s' := he.invariant (I := fun s => s.Fresh ∧ Listed s)
    (fun _ _ ⟨hf, h⟩ he => ⟨he.fresh hf, h.edit hf he⟩) ⟨hf, h⟩
  exact hall.2

theorem doReturn (h : Listed s) {c : CoroId} (hc : (s.coros c).env = .here)
    (r : Result P.Value P.Error) : Listed (s.doReturn c r) := by
  rw [State.doReturn_eq]
  constructor
  · intro c' hc'
    have hc' : c' ∈ s.managed := List.mem_of_mem_erase hc'
    by_cases hcc : c' = c
    · subst hcc; simpa using hc
    · simpa [Function.update_of_ne hcc] using h.bound c' hc'
  · intro c' henv hcomp
    by_cases hcc : c' = c
    · subst hcc; simp [CoroData.complete] at hcomp
    · simp only [Function.update_of_ne hcc] at henv hcomp
      exact (List.mem_erase_of_ne hcc).mpr (h.managed c' henv hcomp)
  · intro c' henv
    by_cases hcc : c' = c
    · subst hcc; simp
    · simp only [Function.update_of_ne hcc] at henv ⊢
      exact h.silent c' henv

theorem continues {nn : Prop} {c : CoroId} (h : Listed s) (henv : (s.coros c).env = .here)
    (hinc : (s.coros c).complete = false) (hcont : Continues nn c s s') : Listed s' := by
  obtain ⟨g, hco⟩ := hcont.coros
  exact h.setStatus _ henv hinc hco hcont.managed

theorem stepped {t : TokenId} (h : Listed s) (hs : s.Tidy False) (hst0 : Started s)
    (hst : Stepped s t s') : Listed s' := by
  cases hst with
  | start c f hh hc hst =>
      exact h.setStatus (c := c) _ (hst0.token t c hc) (complete_of_status (by simp [hst])) rfl rfl
  | resume c a k r s1 hh hc hst hr =>
      have henv := hst0.token t c hc
      have hlt := hs.fresh.lt_of_status (c := c) (by simp [hst])
      have hp : Listed { s.pop t with current := some c } := h.congr rfl rfl
      have he : Edits none 0 False { s.pop t with current := some c } s1 := awaitResume_edits_of hr
      have h1 : Listed (s1.log (.resumed c t (s.pop t).now)) := (hp.edits hs.fresh he).congr rfl rfl
      have hx := he.ext.coro c hlt
      exact h1.continues ((hx.bound (by simp [State.pop, henv])).1.trans henv)
        ((he.ext.complete hlt).trans (complete_of_status (by simp [State.pop, hst])))
        (.deliver False _ c a.target k r)
  | rethrow | fire | count | raise | skip => exact h.congr rfl rfl

theorem ran {nn : Prop} {c : CoroId} {f : P.Frame} {act : Action P.User P.Frame P.Value P.Error}
    (h : Listed s) (hs : s.Tidy nn) (hst0 : Started s) (hst : (s.coros c).status = .running f)
    (hr : Ran nn s c act s') : Listed s' := by
  have henv := hst0.env_of_running hst
  have hinc : (s.coros c).complete = false := complete_of_status (by simp [hst])
  have hlt : c < s.nextCoro := hs.fresh.lt (by simp [henv])
  have hkeep : ∀ {n s1}, Ext n s s1 →
      (s1.coros c).env = .here ∧ (s1.coros c).complete = false := fun he =>
    ⟨((he.coro c hlt).bound (by simp [henv])).1.trans henv, (he.complete hlt).trans hinc⟩
  cases hr with
  | continues s1 _ he hcont =>
      exact (h.edits hs.fresh he).continues (hkeep he.ext).1 (hkeep he.ext).2 hcont
  | throws a k sm s1 _ hact hthrow hm he hcont =>
      have h1 := (h.edits hs.fresh hm).edits (Edits.tidy hm hs).fresh he
      have hx := hkeep (hm.ext.trans (he.mono hm.ext.nextToken).ext)
      exact h1.continues hx.1 hx.2 hcont
  | suspends a a' k sm s1 hact hm he =>
      have h1 := (h.edits hs.fresh hm).edits (Edits.tidy hm hs).fresh he
      have hx := hkeep (hm.ext.trans (he.mono hm.ext.nextToken).ext)
      exact h1.setStatus (.suspended a' k) hx.1 hx.2
        (by unfold State.suspend; split <;> rfl) (by unfold State.suspend; split <;> rfl)
  | returns v =>
      have h1 : Listed (s.setCoro c { s.coros c with returnValue := v }) :=
        h.update rfl rfl (fun hc => hc) (fun _ _ => h.managed c henv hinc)
          fun hne => absurd henv hne
      exact h1.doReturn (by simpa [State.setCoro] using henv) _
  | fails e =>
      rw [State.propagateException_eq]
      have h1 : Listed { s with
          tokens := fun t =>
            if t ∈ (s.coros c).completionTokens then { s.tokens t with eptr := some e }
            else s.tokens t } := h.congr rfl rfl
      exact h1.doReturn henv _

end Listed

theorem Step.listed {l : Label P} (hstep : Step s l s') (hs : s.Tidy False) (hst0 : Started s)
    (h : Listed s) : Listed s' := by
  cases hstep with
  | call f o =>
      have he : Edit none 0 False s (s.newCoro (.user (P.start f)) o) :=
        .newCoro _ o (.user f) (by simp)
      exact h.edit hs.fresh he
  | bind a =>
      have he : Edits none 0 False s (s.bind a) := bind_call_edits hs a (by simp)
      exact h.edits hs.fresh he
  | elsewhere c henv =>
      refine h.update rfl rfl (fun hc => ?_) (fun hc => by cases hc) fun _ => ?_
      · rw [henv] at hc; cases hc
      · exact h.silent c (by simp [henv])
  | step t _ htop hst => exact h.stepped hs hst0 (step_stepped hst)
  | advance deadline => exact h.congr rfl rfl
  | exec c _ hex =>
      obtain ⟨f, hst, hran⟩ := exec_ran hs hex fun _ _ hf => hf.elim
      exact Listed.ran (s := s.ran f) (h.congr rfl rfl) ⟨hs.fresh, hs.object⟩
        ⟨hst0.token, hst0.current, hst0.begun⟩ hst hran
  | reset =>
      unfold State.reset
      rw [State.destroyAll_eq]
      constructor
      · intro c hc; cases hc
      · intro c henv hcomp
        by_cases hc : c ∈ s.managed
        · simp [hc, CoroData.complete] at hcomp
        · simp only [hc, if_false] at henv hcomp
          exact absurd (h.managed c henv hcomp) hc
      · intro c henv
        by_cases hc : c ∈ s.managed
        · simp only [hc, if_true] at henv
          exact absurd (h.bound c hc) henv
        · simp only [hc, if_false] at henv ⊢
          exact h.silent c henv

theorem Listed.init (m : P.Memory) : Listed (State.init m : State P) :=
  ⟨fun _ hc => (by cases hc), fun _ hc => (by cases hc), fun _ _ => rfl⟩

end Cxxdes
