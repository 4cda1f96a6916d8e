-- SUMMARY: What one transition can do to the status of a process.
import Cxxdes.Run.Frames

/-!
# Statuses

One case analysis for all transitions: a process keeps its status, is called, begins,
ends, is resumed in the `co_await` it is suspended in, or does an action of its body.
-/

namespace Cxxdes

variable {P : Program} {s s' : State P}

/-! ### Awaiting -/

theorem Edit.status_cases {cd : Option CoroId} {n : TokenId} {nn : Prop}
    (he : Edit cd n nn s s') (c : CoroId) :
    (s'.coros c).status = (s.coros c).status ∨
      ∃ f, f.Starts ∧ (s'.coros c).status = .initial f := by
  have hset : ∀ {c0 : CoroId} {d : CoroData P},
      (d.status = (s.coros c0).status ∨ ∃ f, f.Starts ∧ d.status = .initial f) →
      (Function.update s.coros c0 d c).status = (s.coros c).status ∨
        ∃ f, f.Starts ∧ (Function.update s.coros c0 d c).status = .initial f := by
    intro c0 d hd
    by_cases hc : c = c0
    · subst hc; rw [Function.update_self]; exact hd
    · rw [Function.update_of_ne hc]; exact .inl rfl
  cases he with
  | newCoro f o hf => exact hset (.inr ⟨f, hf, rfl⟩)
  | startCoro c0 priority =>
      exact hset (d := (s.coros c0).started s.current
        (resolvePriority (s.coros c0).priority priority) s.nextToken) (.inl rfl)
  | newCompletion p cd' =>
      exact hset (d := (s.coros p.coro).completionToken s.nextToken) (.inl rfl)
  | wake evt => exact .inl (by simp [State.wake])
  | timeout | newWaiter | newHandler | install | setObject => exact .inl rfl

/-- Awaiting calls coroutine functions, and leaves all other processes as they are. -/
theorem Edits.status_cases {cd : Option CoroId} {n : TokenId} {nn : Prop}
    (he : Edits cd n nn s s') (c : CoroId) :
    (s'.coros c).status = (s.coros c).status ∨
      ∃ f, f.Starts ∧ (s'.coros c).status = .initial f := by
  induction he with
  | refl => exact .inl rfl
  | tail _ he ih =>
      rcases he.status_cases c with h1 | h1
      · rcases ih with h2 | ⟨f, hf, h2⟩
        · exact .inl (h1.trans h2)
        · exact .inr ⟨f, hf, h1.trans h2⟩
      · exact .inr h1

/-- A body that runs still does. -/
theorem Edits.running {cd : Option CoroId} {n : TokenId} {nn : Prop}
    (he : Edits cd n nn s s') (hs : s.Tidy False) {c : CoroId} {f : P.Frame}
    (hst : (s.coros c).status = .running f) : (s'.coros c).status = .running f :=
  (he.ext.coro c (hs.fresh.lt_of_status (by simp [hst]))).status.trans hst

/-! ### Actions -/

/-- What an action does to the process whose body it is. -/
theorem Acted.status_self {c : CoroId} {act : Action P.User P.Frame P.Value P.Error}
    (h : Acted s c act s') (hs : s.Tidy False) {J : P.Frame → Prop} (hall : act.All J) :
    (s'.coros c).status.All J := by
  have hset : ∀ (s1 : State P) (st : Status P), ((s1.setStatus c st).coros c).status = st :=
    fun s1 st => by simp [State.setStatus, State.setCoro]
  have hret : ∀ (s1 : State P) r, ((s1.doReturn c r).coros c).status = .finished := fun s1 r => by
    rw [State.doReturn_eq]; simp
  cases h with
  | tau f => rw [hset]; exact hall
  | create f o k => rw [hset]; exact hall _
  | declare p k => rw [hset]; exact hall _
  | move o k p => rw [hset]; exact hall _
  | moved o k r =>
      have hst : (((s.moveObject o).deliver c (some (s.objects o).1.coro) (fun r => k (.error r))
          r).coros c).status = .running (k (.error r)) := hset (s.moveObject o) _
      rw [hst]
      exact hall _
  | bind p k s1 h => rw [hset]; exact hall _
  | bindError p k e s1 h => rw [hset]; exact hall _
  | returns v => rw [hret]; trivial
  | fails e => rw [hret]; trivial
  | await a k =>
      have hdel : ∀ (s1 : State P) target r,
          ((s1.deliver c target k r).coros c).status = .running (k r) := fun s1 _ r => hset s1 _
      rcases coAwait_cases hs c (a := a) k (fun hf => hf.elim) with
        ⟨s1, tgt, r, he, hc⟩ | ⟨sm, s1, tgt, e, hm, he, hthrow, hc⟩ |
        ⟨sm, s1, a', hm, he, href, htkn, hlt, hcr, hc⟩
      · rw [hc, hdel]; exact hall r
      · rw [hc, hdel]; exact hall _
      · rw [hc, suspend_coros, Function.update_self]; exact hall

/-- What an action does to the other processes. -/
theorem Acted.status_other {c : CoroId} {act : Action P.User P.Frame P.Value P.Error}
    (h : Acted s c act s') (hs : s.Tidy False) {c' : CoroId} (hc' : c' ≠ c) :
    (s'.coros c').status = (s.coros c').status ∨
      ∃ f, f.Starts ∧ (s'.coros c').status = .initial f := by
  have hset : ∀ (s1 : State P) (st : Status P), (s1.setStatus c st).coros c' = s1.coros c' :=
    fun s1 st => Function.update_of_ne hc' ..
  cases h with
  | tau f => rw [hset]; exact .inl rfl
  | create f o k =>
      rw [hset]
      have he : Edit none 0 False s (s.newCoro (.user (P.start f)) o) :=
        .newCoro _ o (.user f) (fun hf => hf.elim)
      exact he.status_cases c'
  | declare p k => rw [hset]; exact .inl rfl
  | move o k p => rw [hset]; exact .inl rfl
  | moved o k r => exact .inl (congrArg CoroData.status (hset (s.moveObject o) _))
  | bind p k s1 h =>
      rw [hset]
      have he : Edits none 0 False s _ := detach_edits hs.fresh p 0 (fun hf => hf.elim)
      rw [h] at he
      exact he.status_cases c'
  | bindError p k e s1 h =>
      rw [hset]
      have he : Edits none 0 False s _ := detach_edits hs.fresh p 0 (fun hf => hf.elim)
      rw [h] at he
      exact he.status_cases c'
  | returns v =>
      rw [State.doReturn_eq]
      simp [State.setCoro, Function.update_of_ne hc']
  | fails e =>
      rw [State.doReturn_eq, State.propagateException_eq]
      simp [Function.update_of_ne hc']
  | await a k =>
      have hdel : ∀ (s1 : State P) target r, (s1.deliver c target k r).coros c' = s1.coros c' :=
        fun s1 _ r => hset s1 _
      rcases coAwait_cases hs c (a := a) k (fun hf => hf.elim) with
        ⟨s1, tgt, r, he, hc⟩ | ⟨sm, s1, tgt, e, hm, he, hthrow, hc⟩ |
        ⟨sm, s1, a', hm, he, href, htkn, hlt, hcr, hc⟩
      · rw [hc, hdel]; exact he.status_cases c'
      · rw [hc, hdel]
        rcases he.status_cases c' with h1 | h1
        · rw [h1]; exact hm.status_cases c'
        · exact .inr h1
      · rw [hc, suspend_coros, Function.update_of_ne hc']
        rcases he.status_cases c' with h1 | h1
        · rw [h1]; exact hm.status_cases c'
        · exact .inr h1

/-! ### Transitions -/

/-- What a transition with label `l` from `s` can make of the status of process `c`. -/
inductive Status.Next (s : State P) (l : Label P) (c : CoroId) : Status P → Prop where
  | keeps : Next s l c (s.coros c).status
  | called (f : P.Frame) (hf : f.Starts) : Next s l c (.initial f)
  | ended : Next s l c .finished
  | begins (f : P.Frame) (h : (s.coros c).status = .initial f) : Next s l c (.running f)
  | resumed (a : Awaitable P.User) (k : Result P.Value P.Error → P.Frame)
      (r : Result P.Value P.Error) (h : (s.coros c).status = .suspended a k) :
      Next s l c (.running (k r))
  | acts (f : P.Frame) (st : Status P) (hl : l = .exec c) (h : (s.coros c).status = .running f)
      (hst : ∀ J : P.Frame → Prop, (s.next f).All J → st.All J) : Next s l c st

theorem Status.Next.of_cases {l : Label P} {c : CoroId}
    (h : (s'.coros c).status = (s.coros c).status ∨
      ∃ f, f.Starts ∧ (s'.coros c).status = .initial f) :
    Status.Next s l c (s'.coros c).status := by
  rcases h with h | ⟨f, hf, h⟩
  · rw [h]; exact .keeps
  · rw [h]; exact .called f hf

/-- What a property of frames must fulfil to hold after the transition. -/
theorem Status.Next.all {l : Label P} {c : CoroId} {st : Status P} (h : Status.Next s l c st)
    {J : P.Frame → Prop} (hJ : ∀ f, f.Starts → J f) (hs : (s.coros c).status.All J)
    (hnext : ∀ f, l = .exec c → (s.coros c).status = .running f → (s.next f).All J) :
    st.All J := by
  cases h with
  | keeps => exact hs
  | called f hf => exact hJ f hf
  | ended => trivial
  | begins f h => rw [h] at hs; exact hs
  | resumed a k r h => rw [h] at hs; exact hs r
  | acts f st hl h hst => exact hst J (hnext f hl h)

theorem Stepped.status {t : TokenId} {l : Label P} (h : Stepped s t s') (c : CoroId) :
    Status.Next s l c (s'.coros c).status := by
  cases h with
  | start c' f hh hc hst =>
      by_cases hcc : c = c'
      · subst hcc
        have h1 : (s.coros c).status = .initial f := hst
        simp only [State.log, State.setStatus, State.setCoro, Function.update_self]
        exact .begins f h1
      · simp only [State.log, State.setStatus, State.setCoro, Function.update_of_ne hcc]
        exact .keeps
  | resume c' a k r s1 hh hc hst hr =>
      have he : Edits none 0 False { s.pop t with current := some c' } s1 := awaitResume_edits_of hr
      by_cases hcc : c = c'
      · subst hcc
        simp only [State.deliver, State.log, State.setStatus, State.setCoro, Function.update_self]
        exact .resumed a k r hst
      · simp only [State.deliver, State.log, State.setStatus, State.setCoro,
          Function.update_of_ne hcc]
        have h1 : (s1.coros c).status = (s.coros c).status ∨
            ∃ f, f.Starts ∧ (s1.coros c).status = .initial f := he.status_cases c
        exact .of_cases h1
  | rethrow | fire | count | raise | skip => exact .keeps

/-- Every transition does one of these to each process. -/
theorem Step.status {l : Label P} (hstep : Step s l s') (hs : s.Tidy False) (c : CoroId) :
    Status.Next s l c (s'.coros c).status := by
  cases hstep with
  | call f o =>
      have he : Edit none 0 False s (s.newCoro (.user (P.start f)) o) :=
        .newCoro _ o (.user f) (fun hf => hf.elim)
      exact .of_cases (he.status_cases c)
  | bind a =>
      have he : Edits none 0 False s (s.bind a) := bind_call_edits hs a (fun hf => hf.elim)
      exact .of_cases (he.status_cases c)
  | elsewhere c' henv =>
      by_cases hcc : c = c'
      · subst hcc; simp only [State.setCoro, Function.update_self]; exact .keeps
      · simp only [State.setCoro, Function.update_of_ne hcc]; exact .keeps
  | step t _ htop hst => exact (step_stepped hst).status c
  | advance deadline => exact .keeps
  | exec c' _ hex =>
      obtain ⟨f, hst, hact⟩ := exec_acted hex
      have hs1 : (s.ran f).Tidy False := ⟨hs.fresh, hs.object⟩
      by_cases hcc : c = c'
      · subst hcc
        exact .acts f _ rfl hst fun J hall => hact.status_self hs1 hall
      · exact .of_cases (s := s) (hact.status_other hs1 hcc)
  | reset =>
      unfold State.reset
      rw [State.destroyAll_eq]
      by_cases hc : c ∈ s.managed
      · simp only [hc, if_true]; exact .ended
      · simp only [hc, if_false]; exact .keeps

end Cxxdes
