-- SUMMARY: How handlers, tokens and processes are connected, in every run: the invariants that later modules start from.
import Cxxdes.Run.Started

/-!
# Wiring

The children of a composition and its output token name the same process.
`Sound` collects what holds in every reachable state, also of runs with
re-entrant steps, exceptions and resets, with one lemma for each update.
-/

namespace Cxxdes

variable {P : Program}

/-- The token can still be executed: it is pending, held by an event, held as a
completion token, or the output token of a handler that has not fired. -/
def State.Live (s : State P) (t : TokenId) : Prop :=
  t ∈ s.queue ∨ (∃ e, t ∈ s.events e) ∨ (∃ c, t ∈ (s.coros c).completionTokens) ∨
    ∃ h, (s.handlers h).completionTkn = some t

/-- How handlers are wired to tokens, and what an unbound process looks like. -/
structure Wired (s : State P) : Prop where
  agree : ∀ t h out, (s.tokens t).handler = some h → (s.handlers h).completionTkn = some out →
    (s.tokens out).coroData = (s.tokens t).coroData
  bounded : ∀ t h, (s.tokens t).handler = some h → h < s.nextHandler
  unbound : ∀ c, (s.coros c).env = .unbound →
    (s.coros c).startToken = none ∧ ∃ f, (s.coros c).status = .initial f

variable {gone : List TokenId} {s s' : State P} {own : TokenId → Owner}

theorem Owned.live_lt (h : Owned gone s own) {t : TokenId} (ht : s.Live t) : t < s.nextToken := by
  rcases ht with ht | ⟨e, ht⟩ | ⟨c, ht⟩ | ⟨i, ht⟩
  · exact h.lt (by rw [h.queue t ht]; simp)
  · exact h.lt (by rw [h.event e t ht]; simp)
  · exact h.lt (by rw [h.completion c t ht]; simp)
  · exact h.lt (by rw [h.output i t ht]; simp)

/-- Awaiting makes no old token live again. -/
theorem Ext.live_old {n : TokenId} (h : Ext n s s') {t : TokenId} (ht : s'.Live t)
    (hlt : t < s.nextToken) : s.Live t := by
  have hnew : ¬ s.nextToken ≤ t := Nat.not_le.mpr hlt
  rcases ht with ht | ⟨e, ht⟩ | ⟨c, ht⟩ | ⟨i, ht⟩
  · rcases h.queueOld t ht with ht | ht | ht
    · exact .inl ht
    · exact absurd ht hnew
    · exact .inr (.inl ht)
  · exact .inr (.inl ⟨e, (h.eventOld e t ht).resolve_right hnew⟩)
  · exact .inr (.inr (.inl ⟨c, (h.completionOld c t ht).resolve_right hnew⟩))
  · exact .inr (.inr (.inr ⟨i, (h.outputOld i t ht).resolve_right hnew⟩))

theorem Quiet.live (hq : Quiet s s') {t : TokenId} (ht : s'.Live t) : s.Live t := by
  unfold State.Live at ht ⊢
  rw [hq.queue, hq.events, hq.handlers] at ht
  simpa only [hq.completion] using ht

theorem Owned.executed_notLive (h : Owned gone s own) {t : TokenId} (ht : own t = .executed) :
    ¬ s.Live t := by
  rintro (hl | ⟨e, hl⟩ | ⟨c, hl⟩ | ⟨i, hl⟩)
  · rw [h.queue t hl] at ht; cases ht
  · rw [h.event e t hl] at ht; cases ht
  · rw [h.completion c t hl] at ht; cases ht
  · rw [h.output i t hl] at ht; cases ht

theorem State.pop_live {t u : TokenId} (h : (s.pop t).Live u) : s.Live u := by
  rcases h with h | h | h | h
  · exact .inl (List.mem_of_mem_erase h)
  · exact .inr (.inl h)
  · exact .inr (.inr (.inl h))
  · exact .inr (.inr (.inr h))

/-! ### Wiring -/

namespace Wired

/-- What the wiring depends on. -/
theorem congr (h : Wired s)
    (htok : ∀ t, (s'.tokens t).handler = (s.tokens t).handler ∧
      (s'.tokens t).coroData = (s.tokens t).coroData)
    (hout : ∀ i out, (s'.handlers i).completionTkn = some out →
      (s.handlers i).completionTkn = some out)
    (hn : s'.nextHandler = s.nextHandler)
    (hco : ∀ c, (s'.coros c).env = .unbound →
      (s'.coros c).startToken = none ∧ ∃ f, (s'.coros c).status = .initial f) : Wired s' where
  agree t i out hi ho := by
    rw [(htok t).1] at hi
    rw [(htok t).2, (htok out).2]
    exact h.agree t i out hi (hout i out ho)
  bounded t i hi := by
    rw [(htok t).1] at hi
    rw [hn]
    exact h.bounded t i hi
  unbound := hco

/-- A new token reports to no handler. -/
theorem newToken (h : Wired s) (ho : Owned gone s own) (tkn : Token P.Error)
    (hfree : tkn.handler = none) : Wired (s.newToken tkn) := by
  have hold : ∀ {t i}, ((s.newToken tkn).tokens t).handler = some i →
      t ≠ s.nextToken ∧ (s.tokens t).handler = some i := by
    intro t i hi
    by_cases ht : t = s.nextToken
    · subst ht; simp [State.newToken, hfree] at hi
    · exact ⟨ht, by simpa [State.newToken, Function.update_of_ne ht] using hi⟩
  refine ⟨?_, fun t i hi => h.bounded t i (hold hi).2, h.unbound⟩
  intro t i out hi hout
  obtain ⟨hne, hi⟩ := hold hi
  have hlt : out < s.nextToken := ho.live_lt (.inr (.inr (.inr ⟨i, hout⟩)))
  have hne' : out ≠ s.nextToken := Nat.ne_of_lt hlt
  have heq := h.agree t i out hi hout
  simpa [State.newToken, Function.update_of_ne hne, Function.update_of_ne hne'] using heq

/-- A process may change if it stays bound. -/
theorem setCoro (h : Wired s) (c : CoroId) {d : CoroData P}
    (hd : d.env = .unbound → d.startToken = none ∧ ∃ f, d.status = .initial f) :
    Wired (s.setCoro c d) := by
  refine h.congr (fun _ => ⟨rfl, rfl⟩) (fun _ _ ho => ho) rfl fun c' => ?_
  by_cases hc : c' = c
  · subst hc; simpa [State.setCoro] using hd
  · simpa [State.setCoro, Function.update_of_ne hc] using h.unbound c'

theorem edit {cd : Option CoroId} {n : TokenId} {nn : Prop} (h : Wired s)
    (ho : Owned gone s own) (he : Edit cd n nn s s') : Wired s' := by
  cases he with
  | newCoro f o =>
      have h1 := h.setCoro s.nextCoro (d := .called f o) fun _ => ⟨rfl, f, rfl⟩
      exact ⟨h1.agree, h1.bounded, h1.unbound⟩
  | startCoro c priority henv =>
      have h1 := h.newToken ho ⟨s.now + (s.coros c).latency,
        resolvePriority (s.coros c).priority priority, some c, none, none⟩ rfl
      have h2 := h1.setCoro c (d := (s.coros c).started s.current
        (resolvePriority (s.coros c).priority priority) s.nextToken) fun hd => by cases hd
      exact ⟨h2.agree, h2.bounded, h2.unbound⟩
  | newCompletion p cd' hcd henv =>
      have h1 := h.newToken ho ⟨p.retLatency, s.returnPriority p, cd', none, none⟩ rfl
      refine h1.setCoro p.coro fun hd => ?_
      have hd : (s.coros p.coro).env = .unbound := hd
      rw [henv] at hd
      cases hd
  | timeout time priority =>
      have h1 := h.newToken ho ⟨time, priority, cd, none, none⟩ rfl
      exact ⟨h1.agree, h1.bounded, h1.unbound⟩
  | newWaiter evt latency priority =>
      have h1 := h.newToken ho ⟨latency, priority, cd, none, none⟩ rfl
      exact ⟨h1.agree, h1.bounded, h1.unbound⟩
  | newHandler c total =>
      have h1 := h.newToken ho ⟨c.latency, c.priority, cd, none, none⟩ rfl
      refine ⟨?_, fun t i hi => Nat.lt_succ_of_lt (h1.bounded t i hi), h1.unbound⟩
      intro t i out hi hout
      have hne : i ≠ s.nextHandler := Nat.ne_of_lt (h1.bounded t i hi)
      simp only [State.newHandler, Function.update_of_ne hne] at hout
      exact h1.agree t i out hi hout
  | install t i hn ht hh hfree heptr hout =>
      have hcd : ∀ u, ((s.install t i).tokens u).coroData = (s.tokens u).coroData := by
        intro u
        by_cases hu : u = t
        · subst hu; simp [State.install, State.setToken]
        · simp [State.install, State.setToken, Function.update_of_ne hu]
      refine ⟨fun u j out hj ho => ?_, fun u j hj => ?_, h.unbound⟩
      · rw [hcd, hcd]
        by_cases hu : u = t
        · subst hu
          simp only [State.install, State.setToken, Function.update_self, Option.some.injEq] at hj
          subst hj
          exact hout out ho
        · simp only [State.install, State.setToken, Function.update_of_ne hu] at hj
          exact h.agree u j out hj ho
      · by_cases hu : u = t
        · subst hu
          simp only [State.install, State.setToken, Function.update_self, Option.some.injEq] at hj
          exact hj ▸ hh
        · simp only [State.install, State.setToken, Function.update_of_ne hu] at hj
          exact h.bounded u j hj
  | wake evt =>
      refine h.congr (fun t => ?_) (fun i out hi => ?_) ?_ ?_
      · obtain ⟨h1, h2, -⟩ := s.releaseAll_fields (s.events evt) t
        exact ⟨h1, h2⟩
      · simpa [State.wake] using hi
      · simp [State.wake]
      · simpa [State.wake] using h.unbound
  | setObject o tkn => exact ⟨h.agree, h.bounded, h.unbound⟩

end Wired

/-! ### The tokens an await creates -/

/-- No edit changes whom an old token names. -/
theorem Edit.coroData_eq {cd : Option CoroId} {n : TokenId} {nn : Prop} (he : Edit cd n nn s s')
    {t : TokenId} (ht : t < s.nextToken) :
    (s'.tokens t).coroData = (s.tokens t).coroData := by
  have hold : ∀ tkn : Token P.Error, Function.update s.tokens s.nextToken tkn t = s.tokens t :=
    fun tkn => Function.update_of_ne (Nat.ne_of_lt ht) _ _
  cases he with
  | newCoro | setObject => rfl
  | startCoro | newCompletion | timeout | newWaiter | newHandler =>
      exact congrArg Token.coroData (hold _)
  | install u i =>
      by_cases hu : t = u
      · subst hu; simp [State.install, State.setToken]
      · simp [State.install, State.setToken, Function.update_of_ne hu]
  | wake evt => exact (s.releaseAll_fields (s.events evt) t).2.1

/-- No edit changes where a coroutine is, except that new ones are suspended
initially. -/
theorem Edit.status_old {cd : Option CoroId} {n : TokenId} {nn : Prop} (he : Edit cd n nn s s')
    {c : CoroId} {st : Status P} (hne : ∀ f, st ≠ .initial f) (h : (s'.coros c).status = st) :
    (s.coros c).status = st := by
  have hset : ∀ {c0 : CoroId} {d : CoroData P},
      (d.status = st → (s.coros c0).status = st) →
      (Function.update s.coros c0 d c).status = st → (s.coros c).status = st := by
    intro c0 d hd hr
    by_cases hc : c = c0
    · subst hc; rw [Function.update_self] at hr; exact hd hr
    · rwa [Function.update_of_ne hc] at hr
  cases he with
  | newCoro g o => exact hset (fun hg => absurd hg.symm (hne g)) h
  | startCoro c0 priority =>
      exact hset (d := (s.coros c0).started s.current
        (resolvePriority (s.coros c0).priority priority) s.nextToken) (fun hg => hg) h
  | newCompletion p cd' =>
      exact hset (d := (s.coros p.coro).completionToken s.nextToken) (fun hg => hg) h
  | wake evt => simpa [State.wake] using h
  | _ => exact h

theorem Edits.status_old {cd : Option CoroId} {n : TokenId} {nn : Prop}
    (he : Edits cd n nn s s') {c : CoroId} {st : Status P} (hne : ∀ f, st ≠ .initial f)
    (h : (s'.coros c).status = st) : (s.coros c).status = st := by
  induction he with
  | refl => exact h
  | tail _ he ih => exact ih (he.status_old hne h)

/-- No edit makes a body run. -/
theorem Edits.running_old {cd : Option CoroId} {n : TokenId} {nn : Prop}
    (he : Edits cd n nn s s') {c : CoroId} {f : P.Frame}
    (h : (s'.coros c).status = .running f) : (s.coros c).status = .running f :=
  he.status_old (by simp) h

/-- A new token names nobody, the process that awaits, or is the start token of the
process it names. -/
def State.Named (cd : Option CoroId) (s : State P) (t : TokenId) : Prop :=
  (s.tokens t).coroData = none ∨ (s.tokens t).coroData = cd ∨
    ∃ c f, (s.tokens t).coroData = some c ∧ c < s.nextCoro ∧ (s.coros c).env = .here ∧
      (s.coros c).startToken = some t ∧ (s.coros c).status = .initial f

theorem Edit.named_old {cd : Option CoroId} {n : TokenId} {nn : Prop} (he : Edit cd n nn s s')
    {t : TokenId} (ht : t < s.nextToken) (hn : s.Named cd t) : s'.Named cd t := by
  unfold State.Named
  rw [he.coroData_eq ht]
  rcases hn with hn | hn | ⟨c, f, hn, hc, henv, hst, hf⟩
  · exact .inl hn
  · exact .inr (.inl hn)
  · have hx := he.ext.coro c hc
    obtain ⟨h1, h2, -⟩ := hx.bound (by simp [henv])
    exact .inr (.inr ⟨c, f, hn, Nat.lt_of_lt_of_le hc he.ext.nextCoro, h1.trans henv,
      h2.trans hst, hx.status.trans hf⟩)

theorem Edit.named_new {cd : Option CoroId} {n : TokenId} {nn : Prop} (he : Edit cd n nn s s')
    (hf : s.Fresh) (hw : Wired s) {t : TokenId} (hle : s.nextToken ≤ t) (ht : t < s'.nextToken) :
    s'.Named cd t := by
  cases he with
  | newCoro | setObject | install => exact absurd ht (Nat.not_lt.mpr hle)
  | wake evt => simp [State.wake] at ht; exact absurd ht (Nat.not_lt.mpr hle)
  | startCoro c priority henv =>
      obtain rfl : t = s.nextToken := Nat.le_antisymm (Nat.le_of_lt_succ ht) hle
      obtain ⟨-, f, hst⟩ := hw.unbound c henv
      have hlt : c < s.nextCoro := hf.lt (by simp [henv])
      refine .inr (.inr ⟨c, f, ?_, hlt, ?_, ?_, ?_⟩) <;>
        simp [State.startCoro, State.log, State.scheduleToken, State.newToken, State.setCoro,
          CoroData.started, hst]
  | newCompletion p cd' hcd =>
      obtain rfl : t = s.nextToken := Nat.le_antisymm (Nat.le_of_lt_succ ht) hle
      have htok : ((s.newCompletion p cd').tokens s.nextToken).coroData = cd' := by
        simp [State.newCompletion, State.newToken, State.setCoro]
      exact hcd.imp (fun h => htok.trans h) fun h => .inl (htok.trans h)
  | timeout time priority =>
      obtain rfl : t = s.nextToken := Nat.le_antisymm (Nat.le_of_lt_succ ht) hle
      exact .inr (.inl (by simp [State.scheduleToken, State.newToken]))
  | newWaiter evt latency priority =>
      obtain rfl : t = s.nextToken := Nat.le_antisymm (Nat.le_of_lt_succ ht) hle
      exact .inr (.inl (by simp [State.newWaiter, State.newToken]))
  | newHandler c total =>
      obtain rfl : t = s.nextToken := Nat.le_antisymm (Nat.le_of_lt_succ ht) hle
      exact .inr (.inl (by simp [State.newHandler, State.newToken]))

/-! ### Other updates -/

theorem count_completionTkn (s : State P) (i j : HandlerId) :
    ((s.count i).handlers j).completionTkn = (s.handlers j).completionTkn := by
  by_cases hj : j = i
  · subst hj; simp [State.count, State.setHandler]
  · simp [State.count, State.setHandler, Function.update_of_ne hj]

theorem fire_completionTkn {i j : HandlerId} {t out u : TokenId}
    (hj : ((s.fire i t out).handlers j).completionTkn = some u) :
    (s.handlers j).completionTkn = some u := by
  by_cases hji : j = i
  · subst hji
    simp [State.fire, State.scheduleToken, State.setToken, State.setHandler] at hj
  · simpa [State.fire, State.scheduleToken, State.setToken, State.setHandler,
      Function.update_of_ne hji] using hj

/-- The output token of a composition takes over what the child token named. -/
theorem Wired.fire_fields (h : Wired s) {i : HandlerId} {t out : TokenId}
    (hi : (s.tokens t).handler = some i) (hout : (s.handlers i).completionTkn = some out)
    (u : TokenId) :
    ((s.fire i t out).tokens u).handler = (s.tokens u).handler ∧
      ((s.fire i t out).tokens u).coroData = (s.tokens u).coroData := by
  by_cases hu : u = out
  · subst hu
    simp [State.fire, State.scheduleToken, State.setToken, State.setHandler,
      State.outputToken, h.agree t i u hi hout]
  · simp [State.fire, State.scheduleToken, State.setToken, State.setHandler,
      Function.update_of_ne hu]

theorem propagateException_fields (s : State P) (c : CoroId) (e : Exn P.Error) (u : TokenId) :
    ((s.propagateException c e).tokens u).handler = (s.tokens u).handler ∧
      ((s.propagateException c e).tokens u).coroData = (s.tokens u).coroData := by
  rw [State.propagateException_eq]
  simp only
  split <;> exact ⟨rfl, rfl⟩

theorem doReturn_fields (s : State P) (c : CoroId) (r : Result P.Value P.Error) (u : TokenId) :
    ((s.doReturn c r).tokens u).handler = (s.tokens u).handler ∧
      ((s.doReturn c r).tokens u).coroData = (s.tokens u).coroData := by
  rw [State.doReturn_eq]
  have h := s.releaseAll_fields (s.coros c).completionTokens u
  exact ⟨h.1, h.2.1⟩

/-- The status of a bound process may change. -/
theorem Wired.update (h : Wired s) {c : CoroId} {d : CoroData P} (hd : d.env = .here)
    (hco : s'.coros = Function.update s.coros c d) (c' : CoroId)
    (hu : (s'.coros c').env = .unbound) :
    (s'.coros c').startToken = none ∧ ∃ f, (s'.coros c').status = .initial f := by
  rw [hco] at hu ⊢
  by_cases hcc : c' = c
  · subst hcc
    rw [Function.update_self, hd] at hu
    cases hu
  · rw [Function.update_of_ne hcc] at hu ⊢
    exact h.unbound c' hu

theorem Quiet.wired (hq : Quiet s s') (h : Wired s)
    (hco : ∀ c, (s'.coros c).env = .unbound →
      (s'.coros c).startToken = none ∧ ∃ f, (s'.coros c).status = .initial f) : Wired s' := by
  refine h.congr (fun t => ?_) (fun i out hi => ?_) hq.nextHandler hco
  · rw [hq.tokens]; exact ⟨rfl, rfl⟩
  · rw [hq.handlers] at hi; exact hi

/-! ### Sound states -/

/-- What holds in every reachable state. -/
structure Sound (s : State P) : Prop where
  tidy : s.Tidy False
  owned : ∃ gone own, Owned gone s own
  wired : Wired s
  started : Started s
  listed : Listed s

namespace Sound

theorem init (m : P.Memory) : Sound (State.init m : State P) where
  tidy := ⟨fun _ _ => rfl, by simp⟩
  owned := ⟨[], _, Owned.init m⟩
  wired := ⟨fun _ _ _ hi => (by cases hi), fun _ _ hi => (by cases hi), fun _ hu => (by cases hu)⟩
  started := ⟨fun _ _ ht => (by cases ht), fun _ hc => (by cases hc), fun _ _ => .inl rfl⟩
  listed := .init m

theorem edit {cd : Option CoroId} {n : TokenId} {nn : Prop} (h : Sound s)
    (hcd : ∀ c, cd = some c → (s.coros c).env = .here) (he : Edit cd n nn s s') : Sound s' := by
  obtain ⟨gone, own, ho⟩ := h.owned
  obtain ⟨own', ho'⟩ := ho.edit he
  exact ⟨⟨he.fresh h.tidy.fresh, by simp⟩, ⟨gone, own', ho'⟩, h.wired.edit ho he,
    (h.started.edit h.tidy.fresh hcd he).1, h.listed.edit h.tidy.fresh he⟩

theorem edits {cd : Option CoroId} {n : TokenId} {nn : Prop} (h : Sound s)
    (hcd : ∀ c, cd = some c → (s.coros c).env = .here) (he : Edits cd n nn s s') : Sound s' := by
  have hall : Sound s' ∧ ∀ c, cd = some c → (s'.coros c).env = .here :=
    he.invariant (I := fun s => Sound s ∧ ∀ c, cd = some c → (s.coros c).env = .here)
      (fun _ _ ⟨h, hcd⟩ he => ⟨h.edit hcd he, (h.started.edit h.tidy.fresh hcd he).2⟩) ⟨h, hcd⟩
  exact hall.1

/-- A change of the trace, the memory, the handle objects or the current process. -/
theorem quiet (h : Sound s) (hq : Quiet s s') (hn : s'.nextCoro = s.nextCoro)
    (hco : s'.coros = s.coros) (hm : s'.managed = s.managed)
    (hcur : ∀ c, s'.current = some c → (s.coros c).env = .here) : Sound s' := by
  obtain ⟨gone, own, ho⟩ := h.owned
  refine ⟨⟨fun c hle => ?_, by simp⟩, ⟨gone, own, ho.quiet hq⟩, hq.wired h.wired ?_,
    ⟨fun t c ht => ?_, ?_, ?_⟩, h.listed.congr hco hm⟩
  · rw [hco]; exact h.tidy.fresh c (hn ▸ hle)
  · rw [hco]; exact h.wired.unbound
  · rw [hq.tokens] at ht
    rw [hco]
    exact h.started.token t c ht
  · rw [hco]; exact hcur
  · rw [hco]; exact h.started.begun

/-- A quiet change of a process that is bound and not complete. -/
theorem update {c : CoroId} {d : CoroData P} (h : Sound s) (hq : Quiet s s')
    (hn : s'.nextCoro = s.nextCoro) (henv : (s.coros c).env = .here)
    (hinc : (s.coros c).complete = false) (hco : s'.coros = Function.update s.coros c d)
    (hd : d.env = .here) (hm : s'.managed = s.managed)
    (hcur : ∀ c', s'.current = some c' → (s.coros c').env = .here) : Sound s' := by
  obtain ⟨gone, own, ho⟩ := h.owned
  refine ⟨⟨fun c' hle => ?_, by simp⟩, ⟨gone, own, ho.quiet hq⟩,
    hq.wired h.wired (h.wired.update hd hco), h.started.update hq hd hco fun c' hc' => ?_,
    h.listed.update hco hm (fun _ => hd) (fun _ _ => h.listed.managed c henv hinc)
      fun hne => absurd hd hne⟩
  · rw [hn] at hle
    rw [hco]
    exact h.tidy.fresh.setCoro (h.tidy.fresh.lt (by simp [henv])) d c' hle
  · rw [hco]
    by_cases hcc : c' = c
    · subst hcc; simpa using hd
    · rw [Function.update_of_ne hcc]; exact hcur c' hc'

theorem continues {nn : Prop} {c : CoroId} (h : Sound s) (henv : (s.coros c).env = .here)
    (hinc : (s.coros c).complete = false) (hcont : Continues nn c s s') : Sound s' := by
  obtain ⟨g, hco⟩ := hcont.coros
  refine h.update hcont.quiet hcont.nextCoro (d := { s.coros c with status := .running g }) henv
    hinc hco henv hcont.managed fun c' hc' => ?_
  exact h.started.current c' (hcont.current.symm.trans hc')

theorem elsewhere {c : CoroId} (h : Sound s) (henv : (s.coros c).env = .unbound) :
    Sound (s.setCoro c { s.coros c with env := .elsewhere }) := by
  obtain ⟨gone, own, ho⟩ := h.owned
  have hstep : Step s (.elsewhere c) _ := .elsewhere s c henv
  exact ⟨hstep.tidy (by simp) h.tidy, ⟨gone, own, ho.quiet (.setCoro s c _ rfl rfl)⟩,
    h.wired.setCoro c (fun hu => by cases hu), hstep.started h.tidy h.started,
    hstep.listed h.tidy h.started h.listed⟩

theorem pop (h : Sound s) {t : TokenId} (ht : t ∈ s.queue) : Sound (s.pop t) := by
  obtain ⟨gone, own, ho⟩ := h.owned
  exact ⟨⟨h.tidy.fresh, by simp⟩, ⟨gone, _, ho.pop ht⟩,
    ⟨h.wired.agree, h.wired.bounded, h.wired.unbound⟩,
    ⟨h.started.token, h.started.current, h.started.begun⟩, h.listed.congr rfl rfl⟩

theorem count (h : Sound s) (i : HandlerId) : Sound (s.count i) := by
  obtain ⟨gone, own, ho⟩ := h.owned
  exact ⟨⟨h.tidy.fresh, by simp⟩, ⟨gone, own, ho.count i⟩,
    h.wired.congr (fun _ => ⟨rfl, rfl⟩)
      (fun j out hj => (count_completionTkn s i j).symm.trans hj) rfl h.wired.unbound,
    ⟨h.started.token, h.started.current, h.started.begun⟩, h.listed.congr rfl rfl⟩

theorem fire (h : Sound s) {i : HandlerId} {t out : TokenId}
    (hi : (s.tokens t).handler = some i) (hout : (s.handlers i).completionTkn = some out) :
    Sound (s.fire i t out) := by
  obtain ⟨gone, own, ho⟩ := h.owned
  obtain ⟨own', ho'⟩ := ho.fire hout
  have htok := h.wired.fire_fields hi hout
  exact ⟨⟨h.tidy.fresh, by simp⟩, ⟨gone, own', ho'⟩,
    h.wired.congr htok (fun _ _ hj => fire_completionTkn hj) rfl h.wired.unbound,
    ⟨fun u c hc => h.started.token u c ((htok u).2.symm.trans hc), h.started.current,
      h.started.begun⟩, h.listed.congr rfl rfl⟩

theorem propagateException (h : Sound s) (c : CoroId) (e : Exn P.Error) :
    Sound (s.propagateException c e) := by
  obtain ⟨gone, own, ho⟩ := h.owned
  have hop := ho.propagateException c e
  have htok := propagateException_fields s c e
  rw [State.propagateException_eq] at hop htok ⊢
  exact ⟨⟨h.tidy.fresh, by simp⟩, ⟨gone, own, hop⟩,
    h.wired.congr htok (fun _ _ hi => hi) rfl h.wired.unbound,
    ⟨fun u c hc => h.started.token u c ((htok u).2.symm.trans hc), h.started.current,
      h.started.begun⟩, h.listed.congr rfl rfl⟩

theorem doReturn (h : Sound s) {c : CoroId} (henv : (s.coros c).env = .here)
    (r : Result P.Value P.Error) : Sound (s.doReturn c r) := by
  obtain ⟨gone, own, ho⟩ := h.owned
  obtain ⟨own', ho'⟩ := ho.doReturn c r
  have hst := h.started.doReturn henv r
  have hli := h.listed.doReturn henv r
  have htok := doReturn_fields s c r
  have hlt : c < s.nextCoro := h.tidy.fresh.lt (by simp [henv])
  rw [State.doReturn_eq] at ho' hst hli htok ⊢
  refine ⟨⟨fun c' hle => ?_, by simp⟩, ⟨gone, own', ho'⟩,
    h.wired.congr htok (fun i out hi => by simpa using hi) (by simp) ?_, hst, hli⟩
  · have hle : s.nextCoro ≤ c' := by simpa using hle
    exact h.tidy.fresh.setCoro hlt _ c' hle
  · exact h.wired.update
      (d := { s.coros c with completionTokens := [], status := .finished }) henv rfl

theorem stepped {t : TokenId} (h : Sound s) (ht : t ∈ s.queue) (hst : Stepped s t s') :
    Sound s' := by
  have hp := h.pop ht
  cases hst with
  | rethrow i e hh =>
      exact (hp.count i).quiet (.of_coros rfl) rfl rfl rfl h.started.current
  | fire i out hh he hout => exact hp.fire hh hout
  | count i => exact hp.count i
  | start c f hh hc hst =>
      have henv := h.started.token t c hc
      have hcur : Sound { s.pop t with current := some c } :=
        hp.quiet (.of_coros rfl) rfl rfl rfl fun c' hc' => by cases hc'; exact henv
      refine (hcur.continues henv (complete_of_status (by simp [State.pop, hst]))
        (.setStatus False _ c f)).quiet (.of_coros rfl) rfl rfl rfl fun c' hc' => ?_
      cases hc'
      simpa [State.setStatus, State.setCoro, State.pop] using henv
  | resume c a k r s1 hh hc hst hr =>
      have henv := h.started.token t c hc
      have hlt := h.tidy.fresh.lt_of_status (c := c) (by simp [hst])
      have h0 : Sound { s.pop t with current := some c } :=
        hp.quiet (.of_coros rfl) rfl rfl rfl fun c' hc' => by cases hc'; exact henv
      have he : Edits none s.nextToken False { s.pop t with current := some c } s1 :=
        awaitResume_edits_of hr
      have h1 := h0.edits (by simp) he
      have hlog : Sound (s1.log (.resumed c t (s.pop t).now)) :=
        h1.quiet (.of_coros rfl) rfl rfl rfl h1.started.current
      exact hlog.continues (h1.started.current c he.ext.current)
        ((he.ext.complete hlt).trans (complete_of_status (by simp [State.pop, hst])))
        (.deliver False _ c a.target k r)
  | raise e => exact hp.quiet (.of_coros rfl) rfl rfl rfl h.started.current
  | skip => exact hp

theorem ran {nn : Prop} {c : CoroId} {f : P.Frame} {act : Action P.User P.Frame P.Value P.Error}
    (h : Sound s) (hst : (s.coros c).status = .running f) (hr : Ran nn s c act s') : Sound s' := by
  have henv := h.started.env_of_running hst
  have hinc : (s.coros c).complete = false := complete_of_status (by simp [hst])
  have hlt : c < s.nextCoro := h.tidy.fresh.lt (by simp [henv])
  have hkeep : ∀ {n s1}, Ext n s s1 →
      (s1.coros c).env = .here ∧ (s1.coros c).complete = false := fun he =>
    ⟨((he.coro c hlt).bound (by simp [henv])).1.trans henv, (he.complete hlt).trans hinc⟩
  cases hr with
  | continues s1 _ he hcont =>
      exact (h.edits (by simp) he).continues (hkeep he.ext).1 (hkeep he.ext).2 hcont
  | throws a k sm s1 _ hact hthrow hm he hcont =>
      have hsm := h.edits (by simp) hm
      have h1 := hsm.edits (fun c' hc' => hsm.started.current c' (hm.ext.current.trans hc')) he
      have hx := hkeep (hm.ext.trans (he.mono hm.ext.nextToken).ext)
      exact h1.continues hx.1 hx.2 hcont
  | suspends a a' k sm s1 hact hm he =>
      have hsm := h.edits (by simp) hm
      have h1 := hsm.edits (fun c' hc' => hsm.started.current c' (hm.ext.current.trans hc')) he
      have hx := hkeep (hm.ext.trans (he.mono hm.ext.nextToken).ext)
      exact h1.update (.suspend s1 c a' k) (suspend_nextCoro s1 c a' k) hx.1 hx.2
        (suspend_coros s1 c a' k) hx.1 (suspend_managed s1 c a' k) fun c' hc' => by
          rw [suspend_current] at hc'; cases hc'
  | returns v =>
      have h1 : Sound (s.setCoro c { s.coros c with returnValue := v }) :=
        h.update (.setCoro s c _ rfl rfl) rfl henv hinc rfl henv rfl h.started.current
      exact h1.doReturn (by simpa [State.setCoro] using henv) _
  | fails e =>
      have h1 := h.propagateException c e
      rw [State.propagateException_eq] at h1 ⊢
      exact h1.doReturn henv _

end Sound

/-- A new token names nobody, the awaiting process, or the process it starts. -/
theorem Edits.named {cd : Option CoroId} {n : TokenId} {nn : Prop} (he : Edits cd n nn s s')
    (h : Sound s) (hcd : ∀ c, cd = some c → (s.coros c).env = .here) {t : TokenId}
    (hle : s.nextToken ≤ t) (ht : t < s'.nextToken) : s'.Named cd t := by
  induction he with
  | refl => exact absurd ht (Nat.not_lt.mpr hle)
  | @tail s1 s2 h1 he ih =>
      have hs := h.edits hcd h1
      rcases Nat.lt_or_ge t s1.nextToken with hlt | hge
      · exact he.named_old hlt (ih hlt)
      · exact he.named_new hs.tidy.fresh hs.wired hge ht

theorem Sound.exec {c : CoroId} (h : Sound s) (hex : s.exec c = .ok s') : Sound s' := by
  obtain ⟨f, hst, hran⟩ := exec_ran h.tidy hex fun _ _ hf => hf.elim
  have h1 : Sound (s.ran f) := h.quiet (.of_coros rfl) rfl rfl rfl h.started.current
  exact h1.ran hst hran

theorem Step.sound {l : Label P} (hstep : Step s l s') (h : Sound s) : Sound s' := by
  obtain ⟨gone, own, ho⟩ := h.owned
  cases hstep with
  | call f o =>
      have he : Edit none 0 False s (s.newCoro (.user (P.start f)) o) :=
        .newCoro _ o (.user f) (by simp)
      exact h.edit (by simp) he
  | bind a =>
      have he : Edits none 0 False s (s.bind a) := bind_call_edits h.tidy a (by simp)
      exact h.edits (by simp) he
  | elsewhere c henv => exact h.elsewhere henv
  | step t _ htop hst => exact h.stepped htop.1 (step_stepped hst)
  | advance deadline =>
      exact ⟨⟨h.tidy.fresh, by simp⟩, ⟨gone, own, { ho with }⟩,
        ⟨h.wired.agree, h.wired.bounded, h.wired.unbound⟩,
        ⟨h.started.token, h.started.current, h.started.begun⟩, h.listed.congr rfl rfl⟩
  | exec c _ hex => exact h.exec hex
  | reset hcur hrun =>
      have hstep : Step s .reset s.reset := .reset s hcur hrun
      have htidy := hstep.tidy (by simp) h.tidy
      have hst := hstep.started h.tidy h.started
      have hli := hstep.listed h.tidy h.started h.listed
      obtain ⟨own', ho'⟩ := ho.reset
      refine ⟨htidy, ⟨_, own', ho'⟩, ?_, hst, hli⟩
      unfold State.reset
      rw [State.destroyAll_eq]
      refine ⟨h.wired.agree, h.wired.bounded, fun c hu => ?_⟩
      by_cases hc : c ∈ s.managed
      · simp only [hc, if_true] at hu
        rw [h.listed.bound c hc] at hu
        cases hu
      · simp only [hc, if_false] at hu ⊢
        exact h.wired.unbound c hu

theorem Reachable.sound {C : State P → Label P → Prop} (h : Reachable C s) : Sound s := by
  obtain ⟨m, h⟩ := h
  exact h.invariant (fun _ _ _ hs _ hstep => hstep.sound hs) (Sound.init m)

end Cxxdes
