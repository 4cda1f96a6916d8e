-- SUMMARY: The clock never passes a pending token, as long as the heap of the queue is in order.
import Cxxdes.Run.Order

/-!
# Clock causality

With non-negative latencies no token is scheduled in the past. The clock stays
behind the pending tokens as long as the token that is executed is not later than
the others. The heap ensures that while it is in order. `token_comp` prefers an
exception-only token whatever its time is, and what is pushed and popped meanwhile may
leave the heap in disorder.
-/

namespace Cxxdes

variable {P : Program}

/-- An exception-only token is pending. -/
def State.ErrorPending (s : State P) : Prop :=
  ∃ e ∈ s.queue, (s.tokens e).hasPriority = true

/-- The pending tokens have one time. -/
def State.Level (s : State P) : Prop :=
  ∀ t ∈ s.queue, ∀ u ∈ s.queue, (s.tokens t).time = (s.tokens u).time

/-- `step()` and `run_until()` look at the top of a heap that is in order, or all pending tokens
have one time. -/
def ClockSafe (s : State P) : Label P → Prop
  | .step _ | .advance _ => s.Heaped ∨ s.Level
  | _ => True

/-- Pending tokens are not in the past, and the times that will be added to the
clock are not negative. -/
structure Causal (s : State P) : Prop where
  clock : 0 ≤ s.now
  queue : ∀ t ∈ s.queue, s.now ≤ (s.tokens t).time
  event : ∀ e, ∀ t ∈ s.events e, 0 ≤ (s.tokens t).time
  completion : ∀ c, ∀ t ∈ (s.coros c).completionTokens, 0 ≤ (s.tokens t).time
  output : ∀ h t, (s.handlers h).completionTkn = some t → 0 ≤ (s.tokens t).time
  latency : ∀ c, 0 ≤ (s.coros c).latency

namespace Causal

variable {gone : List TokenId} {s s' : State P} {own : TokenId → Owner}

theorem quiet (h : Causal s) (hq : Quiet s s') : Causal s' where
  clock := by rw [hq.now]; exact h.clock
  queue := by rw [hq.queue, hq.now, hq.tokens]; exact h.queue
  event := by rw [hq.events, hq.tokens]; exact h.event
  completion c := by rw [hq.completion c, hq.tokens]; exact h.completion c
  output := by rw [hq.handlers, hq.tokens]; exact h.output
  latency c := by rw [hq.latency c]; exact h.latency c

/-- A token that is held nowhere may change. -/
theorem setToken (h : Causal s) {t : TokenId} (tkn : Token P.Error)
    (ht : 0 ≤ tkn.time) (hq : t ∈ s.queue → s.now ≤ tkn.time) : Causal (s.setToken t tkn) := by
  have hcases : ∀ {u} {x : Int}, x ≤ (s.tokens u).time → (u = t → x ≤ tkn.time) →
      x ≤ ((s.setToken t tkn).tokens u).time := by
    intro u x hu hut
    by_cases hne : u = t
    · subst hne; simpa [State.setToken] using hut rfl
    · simpa [State.setToken, Function.update_of_ne hne] using hu
  exact {
    clock := h.clock
    queue := fun u hu => hcases (h.queue u hu) fun he => hq (he ▸ hu)
    event := fun e u hu => hcases (h.event e u hu) fun _ => ht
    completion := fun c u hu => hcases (h.completion c u hu) fun _ => ht
    output := fun i u hu => hcases (h.output i u hu) fun _ => ht
    latency := h.latency }

theorem newToken (h : Causal s) (ho : Owned gone s own) {tkn : Token P.Error}
    (ht : 0 ≤ tkn.time) : Causal (s.newToken tkn) := by
  have hq : s.nextToken ∈ s.queue → s.now ≤ tkn.time :=
    fun hm => absurd (ho.queue_lt hm) (Nat.lt_irrefl _)
  have h1 := h.setToken tkn ht hq
  exact ⟨h1.clock, h1.queue, h1.event, h1.completion, h1.output, h1.latency⟩

theorem scheduleToken (h : Causal s) {t : TokenId} (ht : s.now ≤ (s.tokens t).time) :
    Causal (s.scheduleToken t) :=
  { h with
    queue := fun u hu => by
      rcases List.mem_append.mp hu with hu | hu
      · exact h.queue u hu
      · rw [List.mem_singleton.mp hu]; exact ht }

theorem releaseAll {ts : List TokenId} (h : Causal s)
    (hts : ∀ t ∈ ts, 0 ≤ (s.tokens t).time) : Causal (s.releaseAll ts) := by
  induction ts generalizing s with
  | nil => exact h
  | cons t ts ih =>
      have ht := hts t (List.mem_cons_self ..)
      have h0 : 0 ≤ (s.tokens t).time + s.now := Int.add_nonneg ht h.clock
      have hnow : s.now ≤ (s.tokens t).time + s.now := Int.le_add_of_nonneg_left ht
      have h1 := h.setToken (t := t) { s.tokens t with time := (s.tokens t).time + s.now } h0
        fun _ => hnow
      refine ih (h1.scheduleToken (t := t) ?_) fun u hu => ?_
      · simpa [State.setToken] using hnow
      · by_cases hne : u = t
        · subst hne; simpa [State.releaseToken, State.scheduleToken, State.setToken] using h0
        · simpa [State.releaseToken, State.scheduleToken, State.setToken,
            Function.update_of_ne hne] using hts u (List.mem_cons_of_mem _ hu)

theorem setCoro (h : Causal s) (c : CoroId) {d : CoroData P}
    (hts : ∀ t ∈ d.completionTokens, 0 ≤ (s.tokens t).time) (hl : 0 ≤ d.latency) :
    Causal (s.setCoro c d) :=
  { h with
    completion := fun c' t ht => by
      by_cases hc : c' = c
      · subst hc; exact hts t (by simpa [State.setCoro] using ht)
      · exact h.completion c' t (by simpa [State.setCoro, Function.update_of_ne hc] using ht)
    latency := fun c' => by
      by_cases hc : c' = c
      · subst hc; simpa [State.setCoro] using hl
      · simpa [State.setCoro, Function.update_of_ne hc] using h.latency c' }

theorem setEvent (h : Causal s) (e : EventId) (ts : List TokenId)
    (hts : ∀ t ∈ ts, 0 ≤ (s.tokens t).time) :
    Causal { s with events := Function.update s.events e ts } :=
  { h with
    event := fun e' t ht => by
      by_cases he : e' = e
      · subst he; exact hts t (by simpa using ht)
      · exact h.event e' t (by simpa [Function.update_of_ne he] using ht) }

theorem putHandler (h : Causal s) (i : HandlerId) (hd : Handler) (n : HandlerId)
    (hts : ∀ t, hd.completionTkn = some t → 0 ≤ (s.tokens t).time) :
    Causal { s with handlers := Function.update s.handlers i hd, nextHandler := n } :=
  { h with
    output := fun j t ht => by
      by_cases hj : j = i
      · subst hj; exact hts t (by simpa using ht)
      · exact h.output j t (by simpa [Function.update_of_ne hj] using ht) }

theorem edit {cd : Option CoroId} {n : TokenId} (h : Causal s) (ho : Owned gone s own)
    (he : Edit cd n True s s') : Causal s' := by
  have hnew : ∀ tkn : Token P.Error, 0 ≤ tkn.time → Causal (s.newToken tkn) ∧
      (s.newToken tkn).tokens s.nextToken = tkn := fun tkn ht =>
    ⟨h.newToken ho ht, by simp [State.newToken]⟩
  cases he with
  | newCoro f o hf hlat =>
      exact (h.setCoro s.nextCoro (d := .called f o) (by simp [CoroData.called])
        (hlat trivial)).quiet
        (.of_coros rfl)
  | startCoro c priority henv =>
      have ht : 0 ≤ s.now + (s.coros c).latency := Int.add_nonneg h.clock (h.latency c)
      obtain ⟨h1, htok⟩ := hnew ⟨s.now + (s.coros c).latency,
        resolvePriority (s.coros c).priority priority, some c, none, none⟩ ht
      have h2 := h1.scheduleToken (t := s.nextToken)
        (by rw [htok]; exact Int.le_add_of_nonneg_right (h.latency c))
      have h3 := h2.setCoro c (d := (s.coros c).started s.current
        (resolvePriority (s.coros c).priority priority) s.nextToken) (h1.completion c) (h.latency c)
      exact h3.quiet (.of_coros rfl)
  | newCompletion p cd' hcd henv hinc hlat =>
      obtain ⟨h1, htok⟩ := hnew ⟨p.retLatency, s.returnPriority p, cd', none, none⟩ (hlat trivial)
      refine h1.setCoro p.coro ?_ (h.latency p.coro)
      intro t ht
      simp only [CoroData.completionToken] at ht
      split at ht
      · rw [List.mem_singleton.mp ht, htok]; exact hlat trivial
      · rcases List.mem_append.mp ht with ht | ht
        · exact h1.completion p.coro t ht
        · rw [List.mem_singleton.mp ht, htok]; exact hlat trivial
  | timeout time priority hlat =>
      obtain ⟨h1, htok⟩ := hnew ⟨time, priority, cd, none, none⟩
        (Int.le_trans h.clock (hlat trivial))
      exact h1.scheduleToken (by rw [htok]; exact hlat trivial)
  | newWaiter evt latency priority hlat =>
      obtain ⟨h1, htok⟩ := hnew ⟨latency, priority, cd, none, none⟩ (hlat trivial)
      refine h1.setEvent evt _ fun t ht => ?_
      rcases List.mem_append.mp ht with ht | ht
      · exact h1.event evt t ht
      · rw [List.mem_singleton.mp ht, htok]; exact hlat trivial
  | newHandler c total hlat =>
      obtain ⟨h1, htok⟩ := hnew ⟨c.latency, c.priority, cd, none, none⟩ (hlat trivial)
      refine h1.putHandler s.nextHandler _ (s.nextHandler + 1) fun t ht => ?_
      cases ht
      rw [htok]
      exact hlat trivial
  | install t hd hn ht hh hfree heptr =>
      have hsame : ∀ u, ((s.install t hd).tokens u).time = (s.tokens u).time := by
        intro u
        by_cases hu : u = t
        · subst hu; simp [State.install, State.setToken]
        · simp [State.install, State.setToken, Function.update_of_ne hu]
      exact { h with
        queue := fun u hu => by rw [hsame]; exact h.queue u hu
        event := fun e u hu => by rw [hsame]; exact h.event e u hu
        completion := fun c u hu => by rw [hsame]; exact h.completion c u hu
        output := fun i u hu => by rw [hsame]; exact h.output i u hu }
  | wake evt =>
      have h1 := (h.releaseAll (h.event evt)).setEvent evt [] (by simp)
      rw [State.releaseAll_events] at h1
      exact h1
  | setObject o tkn => exact h.quiet (.of_coros rfl)

/-- An invariant of the edits that needs the owners. -/
theorem edits {cd : Option CoroId} {n : TokenId} (h : Causal s) (ho : Owned gone s own)
    (he : Edits cd n True s s') : Causal s' := by
  have hboth : Causal s' ∧ ∃ own, Owned gone s' own :=
    he.invariant (I := fun s => Causal s ∧ ∃ own, Owned gone s own)
      (fun _ _ ⟨hc, _, ho⟩ he => ⟨hc.edit ho he, ho.edit he⟩) ⟨h, own, ho⟩
  exact hboth.1

theorem doReturn (h : Causal s) (c : CoroId) (r : Result P.Value P.Error) :
    Causal (s.doReturn c r) := by
  have h1 := (h.releaseAll (h.completion c)).setCoro c
    (d := { s.coros c with completionTokens := [], status := .finished }) (by simp) (h.latency c)
  rw [State.doReturn_eq]
  refine h1.quiet ?_
  simp only [State.setCoro, State.releaseAll_coros]
  exact .of_coros rfl

/-- Popping a token that is not later than the others. -/
theorem pop (h : Causal s) {t : TokenId} (ht : t ∈ s.queue)
    (hmin : ∀ u ∈ s.queue, (s.tokens t).time ≤ (s.tokens u).time) :
    Causal (s.pop t) ∧ (s.pop t).now = (s.tokens t).time := by
  have hnow : (s.pop t).now = (s.tokens t).time := Int.max_eq_left (h.queue t ht)
  refine ⟨{ h with clock := ?_, queue := fun u hu => ?_ }, hnow⟩
  · exact Int.le_trans h.clock (Int.le_max_right _ _)
  · rw [hnow]
    exact hmin u (List.mem_of_mem_erase hu)

theorem count (h : Causal s) (i : HandlerId) : Causal (s.count i) :=
  h.putHandler i _ s.nextHandler fun t ht => h.output i t ht

theorem fire (h : Causal s) {i : HandlerId} {t out : TokenId}
    (hout : (s.handlers i).completionTkn = some out) (ht : s.now ≤ (s.tokens t).time) :
    Causal (s.fire i t out) := by
  have h0 := h.output i out hout
  have h1 := h.putHandler i { s.handlers i with
    remaining := sizeDecr (s.handlers i).remaining, completionTkn := none } s.nextHandler (by simp)
  have hle : s.now ≤ (s.outputToken out t).time :=
    Int.le_trans ht (Int.le_add_of_nonneg_left h0)
  have h2 := h1.setToken (t := out) (s.outputToken out t) (Int.le_trans h.clock hle) fun _ => hle
  exact h2.scheduleToken (t := out) (by simpa [State.setToken] using hle)

theorem stepped {t : TokenId} (h : Causal s) (ho : Owned gone s own) (ht : t ∈ s.queue)
    (hmin : ∀ u ∈ s.queue, (s.tokens t).time ≤ (s.tokens u).time) (hst : Stepped s t s') :
    Causal s' := by
  obtain ⟨hp, hnow⟩ := h.pop ht hmin
  have hop := ho.pop ht
  cases hst with
  | rethrow hd e => exact (hp.count hd).quiet (.of_coros rfl)
  | fire hd out hh he hout => exact hp.fire hout (Int.le_of_eq hnow)
  | count hd => exact hp.count hd
  | start c f =>
      have hq : Quiet (s.pop t) { s.pop t with current := some c } := .of_coros rfl
      exact hp.quiet ((hq.trans (.setStatus _ c _)).trans (.of_coros rfl))
  | resume c a k r s1 hh hc hst hr =>
      have hq : Quiet (s.pop t) { s.pop t with current := some c } := .of_coros rfl
      have h1 := (hp.quiet hq).edits (hop.quiet hq)
        (awaitResume_edits_of hr : Edits none s.nextToken True _ _)
      have hlog : Quiet s1 (s1.log (.resumed c t (s.pop t).now)) := .of_coros rfl
      exact h1.quiet (hlog.trans (.deliver _ c a.target k r))
  | raise e => exact hp.quiet (.of_coros rfl)
  | skip => exact hp

theorem ran {c : CoroId} {act : Action P.User P.Frame P.Value P.Error}
    (h : Causal s) (ho : Owned gone s own) (hr : Ran True s c act s') : Causal s' := by
  cases hr with
  | continues s1 _ he hcont => exact (h.edits ho he).quiet hcont.quiet
  | throws a k sm s1 _ hact hthrow hm he hcont =>
      obtain ⟨own1, ho1⟩ := ho.edits hm
      exact ((h.edits ho hm).edits ho1 he).quiet hcont.quiet
  | suspends a a' k sm s1 hact hm he =>
      obtain ⟨own1, ho1⟩ := ho.edits hm
      exact ((h.edits ho hm).edits ho1 he).quiet (.suspend s1 c a' k)
  | returns v =>
      exact (h.quiet (.setCoro s c { s.coros c with returnValue := v } rfl rfl)).doReturn c _
  | fails e =>
      refine Causal.doReturn ?_ c _
      rw [State.propagateException_eq]
      have hsame : ∀ u, (if u ∈ (s.coros c).completionTokens then
          { s.tokens u with eptr := some e } else s.tokens u).time = (s.tokens u).time := by
        intro u
        split <;> rfl
      exact { h with
        queue := fun u hu => by rw [hsame]; exact h.queue u hu
        event := fun e u hu => by rw [hsame]; exact h.event e u hu
        completion := fun c u hu => by rw [hsame]; exact h.completion c u hu
        output := fun i u hu => by rw [hsame]; exact h.output i u hu }

end Causal

/-! ### Every step that is safe for the clock -/

/-- The token on top of a heap that is in order is not later than another one. -/
theorem Owned.least_time {s : State P} {gone : List TokenId} {own : TokenId → Owner}
    (ho : Owned gone s own) (hh : s.Heaped ∨ s.Level) {t : TokenId} (htop : s.IsTop t) :
    ∀ u ∈ s.queue, (s.tokens t).time ≤ (s.tokens u).time := by
  intro u hu
  rcases hh with hh | hlevel
  swap
  · exact Int.le_of_eq (hlevel t htop.1 u hu)
  have hlex := ho.least hh htop u hu
  rw [Prod.Lex.toLex_le_toLex] at hlex
  exact hlex.elim Int.le_of_lt fun h => Int.le_of_eq h.1

theorem Step.causal {s s' : State P} {l : Label P} (hstep : Step s l s') (hs : s.Tidy True)
    (hn : l.NonNeg s) (hsafe : ClockSafe s l) {gone : List TokenId} {own : TokenId → Owner}
    (ho : Owned gone s own) (h : Causal s) : Causal s' := by
  cases hstep with
  | call f o =>
      have he : Edit none 0 True s (s.newCoro (.user (P.start f)) o) :=
        .newCoro _ o (.user f) fun _ => hn.1
      exact h.edit ho he
  | bind a =>
      have he : Edits none 0 True s (s.bind a) := bind_call_edits hs a fun _ => hn
      exact h.edits ho he
  | elsewhere c henv => exact h.quiet (.setCoro s c _ rfl rfl)
  | step t _ htop hst => exact h.stepped ho htop.1 (ho.least_time hsafe htop) (step_stepped hst)
  | advance deadline hadv =>
      refine { h with
        clock := Int.le_trans h.clock (Int.le_max_left _ _), queue := fun u hu => ?_ }
      refine Int.max_le.mpr ⟨h.queue u hu, ?_⟩
      rcases hadv with hq | ⟨t, htop, hlt⟩
      · rw [hq] at hu; cases hu
      · exact Int.le_of_lt (Int.lt_of_lt_of_le hlt (ho.least_time hsafe htop u hu))
  | exec c _ hex =>
      obtain ⟨f, hst, hran⟩ := exec_ran hs hex fun f hf _ => hn f hf
      have hq : Quiet s (s.ran f) := .of_coros rfl
      exact (h.quiet hq).ran (ho.quiet hq) hran
  | reset =>
      unfold State.reset
      rw [State.destroyAll_eq]
      refine { h with
        clock := Int.le_refl _, queue := fun t ht => (by cases ht), completion := fun c t ht => ?_,
        latency := fun c => ?_ }
      · simp only at ht
        split at ht <;> exact h.completion c t ht
      · simp only
        split <;> exact h.latency c

/-- The steps of a program without negative latencies that are safe for the clock. -/
def Timely (s : State P) (l : Label P) : Prop :=
  l.NonNeg s ∧ ClockSafe s l

theorem Reachable.causal {C : State P → Label P → Prop} {s : State P} (h : Reachable C s)
    (hC : ∀ s l, C s l → Timely s l) : Causal s := by
  obtain ⟨m, h⟩ := h
  have hall : s.Tidy True ∧ (∃ own gone, Owned gone s own) ∧ Causal s := by
    refine h.invariant
      (I := fun s => s.Tidy True ∧ (∃ own gone, Owned gone s own) ∧ Causal s) ?_ ?_
    · rintro s l s' ⟨hs, ⟨own, gone, ho⟩, hc⟩ hl hstep
      obtain ⟨hn, hsafe⟩ := hC s l hl
      obtain ⟨own', gone', ho', -⟩ := hstep.owned ⟨hs.fresh, by simp⟩ ho
      exact ⟨hstep.tidy (fun _ => hn) hs, ⟨own', gone', ho'⟩, hstep.causal hs hn hsafe ho hc⟩
    · refine ⟨⟨fun c _ => rfl, by simp [State.init]⟩, ⟨_, [], Owned.init m⟩, ?_⟩
      exact ⟨Int.le_refl _, fun _ ht => (by cases ht), fun _ _ ht => (by cases ht),
        fun _ _ ht => (by cases ht), fun _ _ ht => (by cases ht), fun _ => Int.le_refl _⟩
  exact hall.2.2

/-- In every run whose steps are safe for the clock, no pending token is in the past
and every token is executed at its own time. Where `step()` is not safe, the contract of the
queue lets a token be on top whose execution leaves a pending token in the past. -/
theorem clock_causality {s : State P} (h : Reachable Timely s) :
    (∀ u ∈ s.queue, s.now ≤ (s.tokens u).time) ∧
    (∀ t s', ClockSafe s (.step t) → Step s (.step t) s' → s'.now = (s.tokens t).time) ∧
    (¬ (s.Heaped ∨ s.Level) → ∃ t, s.IsTop t ∧
      ∀ s', Step s (.step t) s' → ∃ u ∈ s'.queue, (s'.tokens u).time < s'.now) := by
  have hc := h.causal fun _ _ hl => hl
  obtain ⟨own, gone, ho, -⟩ := h.owned
  have hs : s.Tidy False := h.tidy (by simp)
  refine ⟨hc.queue, fun t s' hsafe hstep => ?_, fun hunsafe => ?_⟩
  · have hk := hstep.kept hs (by simp) ho
    rw [hk.now]
    cases hstep with
    | step _ _ htop => exact (hc.pop htop.1 (ho.least_time hsafe htop)).2
  · obtain ⟨hh, hlevel⟩ := not_or.mp hunsafe
    obtain ⟨t, ht, u, hu, hlt⟩ : ∃ t ∈ s.queue, ∃ u ∈ s.queue,
        (s.tokens u).time < (s.tokens t).time := by
      refine Classical.byContradiction fun hno => hlevel fun t ht u hu => ?_
      exact Int.le_antisymm (Int.not_lt.mp fun hlt => hno ⟨t, ht, u, hu, hlt⟩)
        (Int.not_lt.mp fun hlt => hno ⟨u, hu, t, ht, hlt⟩)
    refine ⟨t, ⟨ht, fun hheap => absurd hheap hh⟩, fun s' hstep => ?_⟩
    have hk := hstep.kept hs (by simp) ho
    have hne : u ≠ t := by rintro rfl; exact absurd hlt (Int.lt_irrefl _)
    have hq : u ∈ (s.begun (.step t)).queue := (List.mem_erase_of_ne hne).mpr hu
    refine ⟨u, hk.queue u hq, ?_⟩
    rw [hk.token u hq, hk.now]
    exact Int.lt_of_lt_of_le hlt (Int.le_max_left _ _)

namespace relay

/-- The transitions that are safe for the clock, evaluated. -/
def timely (s : State relay) : Label relay → Bool
  | .bind (.call _ o) => decide (0 ≤ o.latency ∧ 0 ≤ o.retLatency)
  | .step _ => decide s.Heaped
  | .exec c =>
    match (s.coros c).status with
    | .running (.user _) => true
    | _ => false
  | _ => false

/-- No awaitable of `relay` has a negative latency. -/
theorem nonNeg (s : State relay) (b : Relay) : (s.next (.user b)).NonNeg := by
  cases b <;>
    simp [State.next, Frame.next, relay, Action.map, Action.NonNeg, Awaitable.NonNeg,
      Awaitable.NonNegAll]

theorem timely_spec (s : State relay) (l : Label relay) (h : timely s l = true) : Timely s l := by
  cases l with
  | bind a =>
      cases a with
      | call f o =>
          have hnn : 0 ≤ o.latency ∧ 0 ≤ o.retLatency := of_decide_eq_true h
          exact ⟨hnn, trivial⟩
      | _ => cases h
  | step t =>
      have hheap : s.Heaped := of_decide_eq_true h
      exact ⟨trivial, .inl hheap⟩
  | exec c =>
      refine ⟨fun f hf => ?_, trivial⟩
      simp only [timely, hf] at h
      split at h
      · next b hb => obtain rfl := Status.running.inj hb; exact nonNeg s b
      · cases h
  | call | elsewhere | advance | reset => cases h

end relay

theorem clock_causality_relay :
    (∀ u ∈ (relay.polling relay.timely).queue, 0 ≤ ((relay.polling relay.timely).tokens u).time) ∧
    (((relay.polling relay.timely).move (.step 5)).getD (relay.polling relay.timely)).now = 3 := by
  have h := clock_causality (relay.polling_reachable relay.timely_spec)
  have hheap : (relay.polling relay.timely).Heaped := by decide +kernel
  refine ⟨fun u hu => ?_, ?_⟩
  · have h0 : (relay.polling relay.timely).now = 0 := by decide +kernel
    exact h0 ▸ h.1 u hu
  · have htime : ((relay.polling relay.timely).tokens 5).time = 3 := by decide +kernel
    exact (h.2.1 5 _ (.inl hheap) (State.moved (by decide +kernel))).trans htime

/-- A process that fails at once. -/
def thrower : Program where
  User := Unit
  Body := Unit
  Memory := Unit
  Value := Unit
  Error := Unit
  start := id
  next _ m _ := (m, .throw (.user ()))

namespace thrower

/-- Process 0 has a return latency of 10, process 1 starts with a latency of 7. -/
def bound : State thrower :=
  ((((State.init ()).newCoro (.user ()) { retLatency := 10 }).bind
    (.coroutine { coro := 0, retLatency := 10 } none)).newCoro (.user ()) { latency := 7 }).bind
      (.coroutine { coro := 1 } none)

def started : State thrower :=
  ({ bound.pop 0 with current := some 0 }.setStatus 0 (.running (.user ()))).log (.started 0 0)

/-- Process 0 has failed: its completion token is exception-only, at time 10. -/
def failed : State thrower :=
  (started.propagateException 0 (.user ())).doReturn 0 (.error (.user ()))

/-- The exception-only token has been executed. -/
def raised : State thrower :=
  (failed.pop 1).log (.raised (.user ()) 10)

theorem bound_isTop : bound.IsTop 0 := by
  refine ⟨by decide, fun _ _ => ⟨by decide, fun _ u hu => ?_⟩⟩
  have hu : u ∈ [0, 2] := hu
  rcases List.mem_cons.mp hu with rfl | hu
  · decide
  · rw [List.mem_singleton.mp hu]; decide

theorem failed_isTop : failed.IsTop 1 := by
  refine ⟨by decide, fun _ _ => ⟨by decide, fun hweak => ?_⟩⟩
  -- `token_comp` says that an exception-only token is served before itself
  exact absurd (by decide) (hweak.irrefl 1 (by decide))

theorem raised_reachable : Reachable (fun s l => l.NonNeg s) raised := by
  have h0 : Reachable (fun s l => l.NonNeg s) (State.init () : State thrower) :=
    .init (P := thrower) ()
  have h1 := h0.next (l := .call () { retLatency := 10 }) (by simp [Label.NonNeg]) (.call _ _ _)
  have h2 := h1.next (l := .bind (.coroutine { coro := 0, retLatency := 10 } none))
    (by simp [Label.NonNeg, Awaitable.NonNeg]) (.bind _ _ rfl (by decide))
  have h3 := h2.next (l := .call () { latency := 7 }) (by simp [Label.NonNeg]) (.call _ _ _)
  have h4 : Reachable (fun s l => l.NonNeg s) bound :=
    h3.next (l := .bind (.coroutine { coro := 1 } none))
      (by simp [Label.NonNeg, Awaitable.NonNeg]) (.bind _ _ rfl (by decide))
  have h5 : Reachable (fun s l => l.NonNeg s) started :=
    h4.next (l := .step 0) trivial (.step _ _ _ bound_isTop rfl (by decide))
  have h6 : Reachable (fun s l => l.NonNeg s) failed := by
    refine h5.next (l := .exec 0) (fun f hf => ?_) (.exec _ _ _ rfl (by decide))
    cases hf
    trivial
  exact h6.next (l := .step 1) trivial (.step _ _ _ failed_isTop rfl (by decide))

end thrower

/-- Executing an exception-only token may take the clock past a pending token. -/
theorem clock_passes_pending_token :
    ¬ ∀ (P : Program) (s : State P), Reachable (fun s l => l.NonNeg s) s →
      ∀ u ∈ s.queue, s.now ≤ (s.tokens u).time := by
  intro h
  exact absurd (h thrower thrower.raised thrower.raised_reachable 2 (by decide)) (by decide)

end Cxxdes
