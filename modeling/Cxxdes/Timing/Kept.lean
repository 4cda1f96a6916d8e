-- SUMMARY: What the transitions of a run without exceptions keep of processes, of held tokens and of statuses.
import Cxxdes.Timing.Awaiting
import Cxxdes.Run.Statuses
import Cxxdes.Run.Timeouts

/-!
# Transitions without exceptions

What is expected depends on the completion tokens of processes, on tokens that are held, and on
the status of processes. Each transition leaves these alone, but for the token it executes and
the process it lets run.
-/

namespace Cxxdes

variable {P : Program} {s s' : State P} {c d : CoroId} {t : TokenId} {l : Label P} {n : Int}

/-- The steps of a run in which no body throws. `step()` and the end of `run_until` happen while
no body runs, no `await_suspend` throws, and there is no `reset`. -/
structure ExceptionFree (s : State P) (l : Label P) : Prop where
  sequential : Sequential s l
  returns : ∀ c f e, l = .exec c → (s.coros c).status = .running f → s.next f ≠ .throw e
  between : ∀ deadline, l = .advance deadline → s.current = none

theorem ExceptionFree.ne_reset (hl : ExceptionFree s l) : l ≠ .reset := by
  rintro rfl
  exact hl.sequential

/-- The outside, and the environment between two bodies. -/
theorem ExceptionFree.of_ne_exec (hl : ∀ c, l ≠ .exec c) (hseq : Sequential s l)
    (hadv : ∀ deadline, l ≠ .advance deadline) : ExceptionFree s l :=
  ⟨hseq, fun c _ _ hc => absurd hc (hl c), fun d hd => absurd hd (hadv d)⟩

/-- A body that awaits, without an exception from `await_suspend`. -/
theorem ExceptionFree.of_await {f : P.Frame} {a : Awaitable P.User}
    {k : Result P.Value P.Error → P.Frame} (hst : (s.coros c).status = .running f)
    (hact : s.next f = .await a k) (hno : (s.ran f).suspendThrows c a = false) :
    ExceptionFree s (.exec c) := by
  refine ⟨fun g a' k' hg hact' => ?_, fun d g e hd hg hact' => ?_, fun d hd => by cases hd⟩
  · obtain rfl : f = g := Status.running.inj (hst.symm.trans hg)
    obtain ⟨rfl, -⟩ := Action.await.inj (hact.symm.trans hact')
    exact hno
  · obtain rfl : c = d := Label.exec.inj hd
    obtain rfl : f = g := Status.running.inj (hst.symm.trans hg)
    rw [hact] at hact'
    cases hact'

/-- `ExceptionFree`, evaluated. -/
def State.exceptionFree (s : State P) : Label P → Bool
  | .step _ | .advance _ => s.current.isNone
  | .exec c =>
    match (s.coros c).status with
    | .running f =>
      match s.next f with
      | .await a _ => !(s.ran f).suspendThrows c a
      | .throw _ => false
      | _ => true
    | _ => true
  | .reset => false
  | _ => true

theorem State.exceptionFree_spec (s : State P) (l : Label P) (h : s.exceptionFree l = true) :
    ExceptionFree s l := by
  cases l with
  | call | bind | elsewhere => exact .of_ne_exec (by simp) trivial (by simp)
  | step t => exact .of_ne_exec (by simp) (Option.isNone_iff_eq_none.mp h) (by simp)
  | advance d => exact ⟨trivial, by simp, fun _ _ => Option.isNone_iff_eq_none.mp h⟩
  | reset => cases h
  | exec c =>
      refine ⟨fun f a k hst hact => ?_, fun d f e hd hst hact => ?_, by simp⟩
      · simp only [exceptionFree, hst, hact, Bool.not_eq_true'] at h
        exact h
      · obtain rfl : c = d := Label.exec.inj hd
        simp only [exceptionFree, hst, hact] at h
        cases h

/-! ### Exceptions -/

theorem State.Unraised.plain (h : s.Unraised) (ho : s.Ordered) : s.Plain := by
  refine ⟨.inr ho.legal, fun u _ => ?_⟩
  unfold Token.hasPriority
  rw [h u]
  simp

theorem Stepped.unraised (hst : Stepped s t s') (h : s.Unraised) : s'.Unraised := by
  cases hst with
  | rethrow | count | raise | skip | start => exact h
  | fire i out => exact h.update (h out)
  | resume c a k r s1 hh hc hst hr =>
      have h1 : ({ s.pop t with current := some c } : State P).Unraised := h
      have he : Edits none 0 False { s.pop t with current := some c } s1 := awaitResume_edits_of hr
      have h2 : s1.Unraised := Edits.unraised he h1
      exact fun u => h2 u

theorem Step.unraised (hstep : Step s l s') (hs : Sound s) (hl : ExceptionFree s l)
    (h : s.Unraised) : s'.Unraised := by
  cases hstep with
  | call f o => exact h
  | bind a =>
      have he : Edits none 0 False s (s.bind a) := bind_call_edits hs.tidy a fun hf => hf.elim
      exact Edits.unraised he h
  | elsewhere c henv => exact h
  | step t _ htop hst => exact (step_stepped hst).unraised h
  | advance deadline => exact h
  | exec c _ hex =>
      obtain ⟨f, hst, hran⟩ := exec_ran hs.tidy hex fun _ _ hf => hf.elim
      have h0 : (s.ran f).Unraised := h
      cases hran with
      | continues s1 _ he hc => exact fun u => (hc.quiet.tokens ▸ Edits.unraised he h0 u)
      | throws a k sm s1 _ hact hthrow hm he hc =>
          exact fun u => (hc.quiet.tokens ▸ Edits.unraised he (Edits.unraised hm h0) u)
      | suspends a a' k sm s1 hact hm he =>
          exact fun u => ((Quiet.suspend s1 c a' k).tokens ▸
            Edits.unraised he (Edits.unraised hm h0) u)
      | returns v =>
          rw [State.doReturn_eq]
          exact State.Unraised.releaseAll (s := (s.ran f).setCoro c _) h0 _
      | fails e hact => exact absurd hact (hl.returns c f e rfl hst)
  | reset => exact hl.sequential.elim

theorem Stepped.ordered (hst : Stepped s t s') (hun : s.Unraised) (h : s.Ordered) :
    s'.Ordered := by
  cases hst with
  | rethrow | count | raise | skip | start => exact ⟨h.legal, h.pushed⟩
  | fire i out =>
      have h0 : (((s.pop t).setHandler i { s.handlers i with
          remaining := sizeDecr (s.handlers i).remaining, completionTkn := none }).setToken out
            ((s.pop t).outputToken out t)).Ordered := ⟨h.legal, h.pushed⟩
      exact h0.scheduleToken (by simpa [State.setToken, State.outputToken, State.pop] using hun out)
  | resume c a k r s1 hh hc hst hr =>
      have he : Edits none 0 False { s.pop t with current := some c } s1 := awaitResume_edits_of hr
      have h1 : s1.Ordered := Edits.ordered he hun ⟨h.legal, h.pushed⟩
      exact ⟨h1.legal, h1.pushed⟩

theorem Step.ordered (hstep : Step s l s') (hs : Sound s) (hl : ExceptionFree s l)
    (hun : s.Unraised) (h : s.Ordered) : s'.Ordered := by
  cases hstep with
  | call | elsewhere | advance => exact ⟨h.legal, h.pushed⟩
  | bind a =>
      have he : Edits none 0 False s (s.bind a) := bind_call_edits hs.tidy a fun hf => hf.elim
      exact Edits.ordered he hun h
  | step t _ htop hst => exact (step_stepped hst).ordered hun h
  | exec c _ hex =>
      obtain ⟨f, hst, hran⟩ := exec_ran hs.tidy hex fun _ _ hf => hf.elim
      have hun0 : (s.ran f).Unraised := hun
      have h0 : (s.ran f).Ordered := ⟨h.legal, h.pushed⟩
      have hquiet : ∀ {s1 : State P}, Quiet s1 s' → s1.Ordered → s'.Ordered := fun hq h1 =>
        ⟨hq.legal.trans h1.legal, fun u => hq.pushed ▸ h1.pushed u⟩
      cases hran with
      | continues s1 _ he hc => exact hquiet hc.quiet (Edits.ordered he hun0 h0)
      | throws a k sm s1 _ hact hthrow hm he hc =>
          exact hquiet hc.quiet
            (Edits.ordered he (Edits.unraised hm hun0) (Edits.ordered hm hun0 h0))
      | suspends a a' k sm s1 hact hm he =>
          exact hquiet (Quiet.suspend s1 c a' k)
            (Edits.ordered he (Edits.unraised hm hun0) (Edits.ordered hm hun0 h0))
      | returns v =>
          rw [State.doReturn_eq]
          have h1 : ((s.ran f).setCoro c
              { (s.ran f).coros c with returnValue := v }).Ordered := ⟨h.legal, h.pushed⟩
          have h2 := h1.releaseAll hun (((s.ran f).setCoro c
            { (s.ran f).coros c with returnValue := v }).coros c).completionTokens
          exact ⟨h2.legal, h2.pushed⟩
      | fails e hact => exact absurd hact (hl.returns c f e rfl hst)
  | reset => exact hl.sequential.elim

/-! ### Processes -/

theorem Step.nextCoro_le (hstep : Step s l s') (hs : Sound s) (hl : l ≠ .reset) :
    s.nextCoro ≤ s'.nextCoro := by
  cases hstep with
  | call f o => exact Nat.le_succ _
  | bind a =>
      have he : Edits none 0 False s (s.bind a) := bind_call_edits hs.tidy a fun hf => hf.elim
      exact (Edits.ext he).nextCoro
  | elsewhere | advance => exact Nat.le_refl _
  | reset => exact absurd rfl hl
  | step t _ htop hst =>
      cases (step_stepped hst).did with
      | passes h => exact Nat.le_of_eq h.nextCoro.symm
      | starts d f _ h | resumes d a k r _ _ h => exact Nat.le_of_eq h.nextCoro.symm
  | exec d _ hex =>
      obtain ⟨f, hst, hran⟩ := exec_ran hs.tidy hex fun _ _ hf => hf.elim
      cases hran with
      | continues s1 _ he hc =>
          rw [hc.nextCoro]
          exact (Edits.ext he).nextCoro
      | throws a k sm s1 _ hact hthrow hm he hc =>
          rw [hc.nextCoro]
          exact Nat.le_trans (Edits.ext hm).nextCoro (Edits.ext he).nextCoro
      | suspends a a' k sm s1 hact hm he =>
          rw [suspend_nextCoro]
          exact Nat.le_trans (Edits.ext hm).nextCoro (Edits.ext he).nextCoro
      | returns | fails =>
          simp [State.doReturn_eq, State.propagateException_eq, State.ran, State.setCoro]

/-- A process that goes on has the same outcome so far, and no fewer completion tokens. -/
structure CoroKept (d d' : CoroData P) : Prop where
  unique : d'.unique = d.unique
  void : d'.void = d.void
  returnValue : d'.returnValue = d.returnValue
  completion : d.unique = false → ∀ t ∈ d.completionTokens, t ∈ d'.completionTokens
  finished : d.status = .finished → d'.status = .finished

namespace CoroKept

theorem refl (d : CoroData P) : CoroKept d d := ⟨rfl, rfl, rfl, fun _ _ h => h, id⟩

theorem trans {d d' d'' : CoroData P} (h : CoroKept d d') (h' : CoroKept d' d'') :
    CoroKept d d'' where
  unique := h'.unique.trans h.unique
  void := h'.void.trans h.void
  returnValue := h'.returnValue.trans h.returnValue
  completion hu t ht := h'.completion (h.unique.trans hu) t (h.completion hu t ht)
  finished hf := h'.finished (h.finished hf)

theorem of_ext {d d' : CoroData P} (h : CoroExt d d') : CoroKept d d' where
  unique := h.unique
  void := h.void
  returnValue := h.returnValue
  completion := h.shared
  finished hf := h.status.trans hf

/-- A process that has not ended gets another status. -/
theorem update {st : Status P}
    (hco : s'.coros = Function.update s.coros d { s.coros d with status := st })
    (hd : (s.coros d).status ≠ .finished) (c : CoroId) :
    CoroKept (s.coros c) (s'.coros c) := by
  rw [hco]
  by_cases hcd : c = d
  · subst hcd
    rw [Function.update_self]
    exact ⟨rfl, rfl, rfl, fun _ _ h => h, fun hf => absurd hf hd⟩
  · rw [Function.update_of_ne hcd]
    exact refl _

end CoroKept

theorem Stepped.coroKept (hst : Stepped s t s') (c : CoroId) :
    CoroKept (s.coros c) (s'.coros c) := by
  cases hst with
  | rethrow | count | raise | skip | fire => exact .refl _
  | start d f hh hcd hst => exact .update (s := s) rfl (by simp [hst]) c
  | resume d a k r s1 hh hcd hst hr =>
      obtain ⟨objects, hobj, -⟩ := awaitResume_objects a { s.pop t with current := some d }
      rw [hr] at hobj
      simp only at hobj
      subst hobj
      exact .update (s := s) rfl (by simp [hst]) c

/-- A transition and a process that it does not end. -/
theorem Step.coroKept (hstep : Step s l s') (hs : Sound s) (hl : ExceptionFree s l)
    (hc : c < s.nextCoro)
    (hret : ∀ f v, l = .exec c → (s.coros c).status = .running f → s.next f ≠ .coReturn v) :
    CoroKept (s.coros c) (s'.coros c) := by
  cases hstep with
  | call f o =>
      have he : Edit none 0 False s (s.newCoro (.user (P.start f)) o) :=
        .newCoro _ o (.user f) fun hf => hf.elim
      exact .of_ext (he.ext.coro c hc)
  | bind a =>
      have he : Edits none 0 False s (s.bind a) := bind_call_edits hs.tidy a fun hf => hf.elim
      exact .of_ext ((Edits.ext he).coro c hc)
  | elsewhere d henv =>
      by_cases hcd : c = d
      · subst hcd
        simp only [State.setCoro, Function.update_self]
        exact ⟨rfl, rfl, rfl, fun _ _ h => h, id⟩
      · simp only [State.setCoro, Function.update_of_ne hcd]
        exact .refl _
  | step t _ htop hst => exact (step_stepped hst).coroKept c
  | advance deadline => exact .refl _
  | exec d _ hex =>
      obtain ⟨f, hst, hran⟩ := exec_ran hs.tidy hex fun _ _ hf => hf.elim
      have hst0 : ((s.ran f).coros d).status = .running f := hst
      have hd : d < (s.ran f).nextCoro := hs.tidy.fresh.lt_of_status (by simp [hst])
      have hne : ∀ {s1 : State P}, Ext 0 (s.ran f) s1 → (s1.coros d).status ≠ .finished :=
        fun hx => by
          rw [(hx.coro d hd).status, hst0]
          simp
      cases hran with
      | continues s1 _ he hc1 =>
          have hx := Edits.ext (Edits.mono (Nat.zero_le _) he)
          obtain ⟨g, hco⟩ := hc1.coros
          exact (CoroKept.of_ext (hx.coro c hc)).trans (.update hco (hne hx) c)
      | throws a k sm s1 _ hact hthrow hm he hc1 =>
          have hx := (Edits.ext (Edits.mono (Nat.zero_le _) hm)).trans
            (Edits.ext (Edits.mono (Nat.zero_le _) he))
          obtain ⟨g, hco⟩ := hc1.coros
          exact (CoroKept.of_ext (hx.coro c hc)).trans (.update hco (hne hx) c)
      | suspends a a' k sm s1 hact hm he =>
          have hx := (Edits.ext (Edits.mono (Nat.zero_le _) hm)).trans
            (Edits.ext (Edits.mono (Nat.zero_le _) he))
          exact (CoroKept.of_ext (hx.coro c hc)).trans
            (.update (suspend_coros s1 d a' k) (hne hx) c)
      | returns v hact =>
          have hcd : c ≠ d := fun hcd => by
            subst hcd
            exact hret f v rfl hst hact
          rw [State.doReturn_eq]
          simp only [State.setCoro, State.ran, Function.update_of_ne hcd]
          exact .refl _
      | fails e hact => exact absurd hact (hl.returns d f e rfl hst)
  | reset => exact hl.sequential.elim

/-- A process whose body is not executed and that no token resumes keeps its status. -/
theorem Step.status_same (hstep : Step s l s') (hs : Sound s) (hl : l ≠ .reset)
    (hc : c < s.nextCoro) (hidle : l ≠ .exec c)
    (hno : ∀ u, l = .step u → ¬ ((s.tokens u).handler = none ∧ (s.tokens u).coroData = some c)) :
    (s'.coros c).status = (s.coros c).status := by
  cases hstep with
  | call f o =>
      have he : Edit none 0 False s (s.newCoro (.user (P.start f)) o) :=
        .newCoro _ o (.user f) fun hf => hf.elim
      exact (he.ext.coro c hc).status
  | bind a =>
      have he : Edits none 0 False s (s.bind a) := bind_call_edits hs.tidy a fun hf => hf.elim
      exact ((Edits.ext he).coro c hc).status
  | elsewhere d henv =>
      by_cases hcd : c = d
      · subst hcd
        simp [State.setCoro]
      · simp [State.setCoro, Function.update_of_ne hcd]
  | step t _ htop hst =>
      cases step_stepped hst with
      | rethrow | count | raise | skip | fire => rfl
      | start d f hh hcd =>
          have hne : c ≠ d := fun heq => hno t rfl ⟨hh, heq ▸ hcd⟩
          simp [State.log, State.setStatus, State.setCoro, State.pop, Function.update_of_ne hne]
      | resume d a k r s1 hh hcd hst hr =>
          have hne : c ≠ d := fun heq => hno t rfl ⟨hh, heq ▸ hcd⟩
          obtain ⟨objects, hobj, -⟩ := awaitResume_objects a { s.pop t with current := some d }
          rw [hr] at hobj
          simp only at hobj
          subst hobj
          simp [State.log, State.deliver, State.setStatus, State.setCoro, State.pop,
            Function.update_of_ne hne]
  | advance deadline => rfl
  | exec d _ hex =>
      obtain ⟨f, hst, hran⟩ := exec_ran hs.tidy hex fun _ _ hf => hf.elim
      exact hran.others.status c (fun heq => hidle (by rw [heq])) hc
  | reset => exact absurd rfl hl

/-! ### Tokens that are held -/

/-- The transition releases `t`: the process that holds it returns, or its handler fires. -/
inductive State.Releases (s : State P) (t : TokenId) : Label P → Prop where
  | returns (c : CoroId) (f : P.Frame) (v : Option P.Value) (hst : (s.coros c).status = .running f)
      (hact : s.next f = .coReturn v) (ht : t ∈ (s.coros c).completionTokens) :
      s.Releases t (.exec c)
  | fires (u : TokenId) (h : HandlerId) (hh : (s.tokens u).handler = some h)
      (hout : (s.handlers h).completionTkn = some t) (hf : s.fires h = true) :
      s.Releases t (.step u)

/-- Two edits after each other leave a token alone that no event holds. -/
private theorem Ext.token_two {sm : State P} {m : TokenId} (h : Ext m s sm)
    (h' : Ext sm.nextToken sm s') (hm : s.nextToken ≤ m) (ht : t < s.nextToken)
    (hev : ∀ e, t ∉ s.events e) : s'.tokens t = s.tokens t := by
  have hlt : t < sm.nextToken := Nat.lt_of_lt_of_le ht h.nextToken
  refine (h'.token t hlt hlt fun e he => ?_).trans (h.token t (Nat.lt_of_lt_of_le ht hm) ht hev)
  cases h.eventOld e t he with
  | inl hold => exact hev e hold
  | inr hnew => exact absurd ht (Nat.not_lt.mpr hnew)

/-- A token that no event holds is written to only when it is released. -/
theorem Step.token_same (hstep : Step s l s') (hs : Sound s) (hl : ExceptionFree s l)
    (ht : t < s.nextToken) (hev : ∀ e, t ∉ s.events e) (hno : ¬ s.Releases t l) :
    s'.tokens t = s.tokens t := by
  cases hstep with
  | call f o => rfl
  | bind a =>
      have he : Edits none s.nextToken False s (s.bind a) :=
        bind_call_edits hs.tidy a fun hf => hf.elim
      exact (Edits.ext he).token t ht ht hev
  | elsewhere c henv => rfl
  | step u _ htop hst =>
      cases step_stepped hst with
      | rethrow | count | raise | skip | start => rfl
      | fire h out hh he hout hf =>
          have hne : t ≠ out := fun heq => hno (.fires u h hh (heq ▸ hout) hf)
          exact Function.update_of_ne hne _ _
      | resume d a k r s1 hh hcd hst hr =>
          obtain ⟨objects, hobj, -⟩ := awaitResume_objects a { s.pop u with current := some d }
          rw [hr] at hobj
          simp only at hobj
          subst hobj
          rfl
  | advance deadline => rfl
  | exec d _ hex =>
      obtain ⟨f, hst, hran⟩ := exec_ran hs.tidy hex fun _ _ hf => hf.elim
      have hlt : t < (s.ran f).nextToken := ht
      cases hran with
      | continues s1 _ he hc =>
          rw [hc.quiet.tokens]
          exact (Edits.ext he).token t ht ht hev
      | throws a k sm s1 _ hact hthrow hm he hc =>
          rw [hc.quiet.tokens]
          exact (Edits.ext hm).token_two (Edits.ext he) (Nat.le_refl _) hlt hev
      | suspends a a' k sm s1 hact hm he =>
          rw [(Quiet.suspend s1 d a' k).tokens]
          exact (Edits.ext hm).token_two (Edits.ext he) (Nat.le_refl _) hlt hev
      | returns v hact =>
          have hnot : t ∉ (s.coros d).completionTokens := fun hmem =>
            hno (.returns d f v hst hact hmem)
          rw [State.doReturn_eq]
          refine ((State.releaseAll_of_notMem _ ?_).1).trans rfl
          simpa [State.setCoro, State.ran] using hnot
      | fails e hact => exact absurd hact (hl.returns d f e rfl hst)
  | reset => exact hl.sequential.elim

end Cxxdes
