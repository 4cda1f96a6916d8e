-- SUMMARY: A wake schedules all current waiters of the event and nobody else, in order, relative to the time of the wake.
import Cxxdes.Run.Tokens

/-!
# Events

The waiters of an event stay registered, in order of arrival and unchanged, until one wake
schedules all of them, each with its own latency and priority. Those that come later wait for a
later wake, also if they come in the same transition.
-/

namespace Cxxdes

variable {P : Program} {s0 s s' s1 : State P} {e : EventId} {t : TokenId} {l : Label P}

/-- The waiters of `e` in `s` still wait in `s'`, with those that have come since behind them. -/
structure State.StillWaits (s : State P) (e : EventId) (s' : State P) : Prop where
  events : ∃ us, s'.events e = s.events e ++ us ∧ ∀ u ∈ us, s.nextToken ≤ u
  tokens : ∀ t ∈ s.events e, s'.tokens t = s.tokens t

/-- A token that has been created since, or that waits for another event. -/
def State.Foreign (s : State P) (e : EventId) (u : TokenId) : Prop :=
  s.nextToken ≤ u ∨ ∃ e', e' ≠ e ∧ u ∈ s.events e'

/-- A piece of a transition. -/
def State.Piece (s s' : State P) : Prop :=
  (∃ cd n nn, Edit cd n nn s s') ∨ Quiet s s'

/-- A piece of a transition after which all waiters of `e` are registered that were before. -/
def State.KeepsWaiters (e : EventId) (s s' : State P) : Prop :=
  s.Piece s' ∧ s.events e <+: s'.events e

/-- A wake of `e` in the course of a transition has scheduled the waiters of `e` in `s` one after
the other, and of the older tokens no other than waiters of other events have been scheduled.
Those that were registered after the (last) wake have stayed so. -/
structure State.Woken (s : State P) (e : EventId) (s' : State P) : Prop where
  scheduled : ∃ us vs, s'.scheduled = s.scheduled ++ us ++ s.events e ++ vs ∧
    ∀ u ∈ us ++ vs, s.Foreign e u
  queue : ∀ t ∈ s.events e, t ∈ s'.queue
  tokens : ∀ t ∈ s.events e,
    s'.tokens t = { s.tokens t with time := (s.tokens t).time + s.now }
  later : ∀ u ∈ s'.events e, s.nextToken ≤ u
  wake : ∃ w, Relation.ReflTransGen State.Piece s w ∧
    Relation.ReflTransGen (State.KeepsWaiters e) (w.wake e) s'

/-! ### Pieces -/

theorem Edit.scheduled_append {cd : Option CoroId} {n : TokenId} {nn : Prop}
    (he : Edit cd n nn s s') : ∃ ts, s'.scheduled = s.scheduled ++ ts ∧
      ∀ u ∈ ts, s.nextToken ≤ u ∨ ∃ evt, s' = s.wake evt ∧ u ∈ s.events evt := by
  cases he with
  | startCoro | timeout => exact ⟨[s.nextToken], rfl, by simp⟩
  | wake evt => exact ⟨s.events evt, by simp [State.wake], fun u hu => .inr ⟨evt, rfl, hu⟩⟩
  | newCoro | newCompletion | newWaiter | newHandler | install | setObject =>
      exact ⟨[], (List.append_nil _).symm, by simp⟩

/-- Only a wake of `e` takes waiters from it. -/
theorem Edit.keepsWaiters {cd : Option CoroId} {n : TokenId} {nn : Prop}
    (he : Edit cd n nn s s') (e : EventId) : s' = s.wake e ∨ s.KeepsWaiters e s' := by
  have hp : s.Piece s' := .inl ⟨cd, n, nn, he⟩
  cases he with
  | newCoro | startCoro | newCompletion | timeout | newHandler | install | setObject =>
      exact .inr ⟨hp, List.prefix_rfl⟩
  | newWaiter evt latency priority =>
      refine .inr ⟨hp, ?_⟩
      by_cases hevt : e = evt
      · subst hevt
        exact ⟨[s.nextToken], by simp [State.newWaiter]⟩
      · exact ⟨[], by simp [State.newWaiter, State.newToken, Function.update_of_ne hevt]⟩
  | wake evt =>
      by_cases hevt : e = evt
      · exact .inl (by rw [hevt])
      · exact .inr ⟨hp, [], by simp [State.wake, Function.update_of_ne hevt]⟩

/-- The pieces between `s0` and `s`, as far as the event `e` is concerned. -/
structure State.Since (s0 : State P) (e : EventId) (s : State P) : Prop where
  now : s.now = s0.now
  nextToken : s0.nextToken ≤ s.nextToken
  pieces : Relation.ReflTransGen State.Piece s0 s
  older : ∀ evt, ∀ u ∈ s.events evt, u ∈ s0.events evt ∨ s0.nextToken ≤ u
  event : (s0.StillWaits e s ∧ ∃ ts, s.scheduled = s0.scheduled ++ ts ∧
    ∀ u ∈ ts, s0.Foreign e u) ∨ s0.Woken e s

theorem State.StillWaits.refl (s : State P) (e : EventId) : s.StillWaits e s where
  events := ⟨[], (List.append_nil _).symm, by simp⟩
  tokens _ _ := rfl

theorem State.Since.refl (s : State P) (e : EventId) : s.Since e s where
  now := rfl
  nextToken := Nat.le_refl _
  pieces := .refl
  older _ _ hu := .inl hu
  event := .inl ⟨.refl s e, [], (List.append_nil _).symm, by simp⟩

/-- Neither the event nor its waiters are concerned. -/
theorem State.StillWaits.keep (h : s0.StillWaits e s) (hev : s'.events e = s.events e)
    (htok : ∀ t ∈ s0.events e, s'.tokens t = s.tokens t) : s0.StillWaits e s' where
  events := by
    rw [hev]
    exact h.events
  tokens t ht := (htok t ht).trans (h.tokens t ht)

/-- A token that is created is not one of the waiters. -/
theorem State.StillWaits.created {x : Token P.Error} (h : s0.StillWaits e s)
    (hold : ∀ t ∈ s0.events e, t < s.nextToken) (hev : s'.events e = s.events e)
    (htok : s'.tokens = Function.update s.tokens s.nextToken x) : s0.StillWaits e s' :=
  h.keep hev fun t ht => by rw [htok, Function.update_of_ne (Nat.ne_of_lt (hold t ht))]

theorem State.StillWaits.edit {cd : Option CoroId} {n : TokenId} {nn : Prop}
    (h : s0.StillWaits e s) (he : Edit cd n nn s s') (hs0 : Sound s0) (hs : Sound s)
    (hle : s0.nextToken ≤ s.nextToken) (hn : s0.nextToken ≤ n) :
    s' = s.wake e ∨ s0.StillWaits e s' := by
  obtain ⟨gone0, own0, ho0⟩ := hs0.owned
  obtain ⟨gone, own, ho⟩ := hs.owned
  have hold0 : ∀ t ∈ s0.events e, t < s0.nextToken := fun t ht =>
    ho0.lt (by rw [ho0.event e t ht]; simp)
  have hold : ∀ t ∈ s0.events e, t < s.nextToken := fun t ht =>
    Nat.lt_of_lt_of_le (hold0 t ht) hle
  obtain ⟨us, hus, hnew⟩ := h.events
  cases he with
  | newCoro | setObject => exact .inr (h.keep rfl fun _ _ => rfl)
  | startCoro | newCompletion | timeout | newHandler => exact .inr (h.created hold rfl rfl)
  | newWaiter evt latency priority =>
      refine .inr ⟨?_, fun t ht => ?_⟩
      · by_cases hevt : e = evt
        · subst hevt
          refine ⟨us ++ [s.nextToken], by simp [State.newWaiter, hus], fun u hu => ?_⟩
          cases List.mem_append.mp hu with
          | inl hu => exact hnew u hu
          | inr hu =>
              rw [List.mem_singleton.mp hu]
              exact hle
        · exact ⟨us, by simpa [State.newWaiter, State.newToken, Function.update_of_ne hevt]
            using hus,
            hnew⟩
      · rw [← h.tokens t ht]
        exact Function.update_of_ne (Nat.ne_of_lt (hold t ht)) _ _
  | install u hd hnu =>
      -- the token of a child is created after `s0`
      refine .inr (h.keep rfl fun t ht => ?_)
      have hlt : t < u := Nat.lt_of_lt_of_le (hold0 t ht) (Nat.le_trans hn hnu)
      exact Function.update_of_ne (Nat.ne_of_lt hlt) _ _
  | wake evt =>
      have hmem : ∀ t ∈ s0.events e, t ∈ s.events e := fun t ht => by
        rw [hus]
        exact List.mem_append_left _ ht
      by_cases hevt : e = evt
      · exact .inl (by rw [hevt])
      · refine .inr (h.keep (by simp [State.wake, Function.update_of_ne hevt]) fun t ht => ?_)
        refine (State.releaseAll_of_notMem s fun hin => hevt ?_).1
        exact Owner.event.inj ((ho.event e t (hmem t ht)).symm.trans (ho.event evt t hin))

/-- The wake. -/
theorem State.Since.woken {ts : List TokenId} (h : s0.Since e s) (hs : Sound s)
    (hw : s0.StillWaits e s) (hts : s.scheduled = s0.scheduled ++ ts)
    (hforeign : ∀ u ∈ ts, s0.Foreign e u) : s0.Woken e (s.wake e) := by
  obtain ⟨gone, own, ho⟩ := hs.owned
  obtain ⟨us, hus, hnew⟩ := hw.events
  have hmem : ∀ t ∈ s0.events e, t ∈ s.events e := fun t ht => by
    rw [hus]
    exact List.mem_append_left _ ht
  refine ⟨⟨ts, us, by simp [State.wake, hts, hus], fun u hu => ?_⟩, fun t ht => ?_,
    fun t ht => ?_, fun u hu => ?_, s, h.pieces, .refl⟩
  · exact (List.mem_append.mp hu).elim (hforeign u) fun hu => .inl (hnew u hu)
  · simp [State.wake, hmem t ht]
  · have htok := (State.releaseAll_of_mem s (ho.eventNodup e) (hmem t ht)).1
    rw [hw.tokens t ht, h.now] at htok
    exact htok
  · simp [State.wake] at hu

/-- What a piece schedules while the waiters still wait, or when they have been woken. -/
theorem State.Since.foreign {u : TokenId} {evt : EventId} (h : s0.Since e s)
    (hu : u ∈ s.events evt) (he : evt = e → s0.nextToken ≤ u) : s0.Foreign e u := by
  by_cases hevt : evt = e
  · exact .inl (he hevt)
  · cases h.older evt u hu with
    | inl hold => exact .inr ⟨evt, hevt, hold⟩
    | inr hnew => exact .inl hnew

theorem State.Since.edit {cd : Option CoroId} {n : TokenId} {nn : Prop} (h : s0.Since e s)
    (he : Edit cd n nn s s') (hs0 : Sound s0) (hs : Sound s) (hn : s0.nextToken ≤ n) :
    s0.Since e s' := by
  obtain ⟨gone0, own0, ho0⟩ := hs0.owned
  obtain ⟨gone, own, ho⟩ := hs.owned
  obtain ⟨ts, hts, hwho⟩ := he.scheduled_append
  have hpieces := h.pieces.tail (.inl ⟨cd, n, nn, he⟩)
  refine ⟨he.ext.now.trans h.now, Nat.le_trans h.nextToken he.ext.nextToken, hpieces,
    fun evt u hu => ?_, ?_⟩
  · cases he.ext.eventOld evt u hu with
    | inl hold => exact h.older evt u hold
    | inr hnew => exact .inr (Nat.le_trans h.nextToken hnew)
  cases h.event with
  | inl hwait =>
      obtain ⟨hw, us, hus, hforeign⟩ := hwait
      cases hw.edit he hs0 hs h.nextToken hn with
      | inl hwake => exact .inr (hwake ▸ h.woken hs hw hus hforeign)
      | inr hw' =>
          by_cases hwake : s' = s.wake e
          · exact .inr (hwake ▸ h.woken hs hw hus hforeign)
          · refine .inl ⟨hw', us ++ ts, by rw [hts, hus, List.append_assoc], fun u hu => ?_⟩
            cases List.mem_append.mp hu with
            | inl hu => exact hforeign u hu
            | inr hu =>
                rcases hwho u hu with hnew | ⟨evt, hevt, hin⟩
                · exact .inl (Nat.le_trans h.nextToken hnew)
                · exact h.foreign hin fun heq => absurd (heq ▸ hevt) hwake
  | inr hw =>
      obtain ⟨us, vs, hsch, hforeign⟩ := hw.scheduled
      have hlater : ∀ u ∈ s'.events e, s0.nextToken ≤ u := fun u hu => by
        cases he.ext.eventOld e u hu with
        | inl hold => exact hw.later u hold
        | inr hnew => exact Nat.le_trans h.nextToken hnew
      refine .inr ⟨⟨us, vs ++ ts, by rw [hts, hsch, List.append_assoc _ vs ts], fun u hu => ?_⟩,
        fun t ht => he.ext.queue t (hw.queue t ht), fun t ht => ?_, hlater, ?_⟩
      · rw [← List.append_assoc] at hu
        cases List.mem_append.mp hu with
        | inl hu => exact hforeign u hu
        | inr hu =>
            rcases hwho u hu with hnew | ⟨evt, -, hin⟩
            · exact .inl (Nat.le_trans h.nextToken hnew)
            · exact h.foreign hin fun heq => hw.later u (heq ▸ hin)
      · have hlt : t < s0.nextToken := ho0.lt (by rw [ho0.event e t ht]; simp)
        rw [← hw.tokens t ht]
        exact he.ext.token t (Nat.lt_of_lt_of_le hlt hn) (Nat.lt_of_lt_of_le hlt h.nextToken)
          fun e' hin => ho.queue_notHeld (hw.queue t ht) (.inl ⟨e', hin⟩)
      · cases he.keepsWaiters e with
        | inl hwake => exact ⟨s, h.pieces, hwake ▸ .refl⟩
        | inr hkeeps =>
            obtain ⟨w, hw1, hw2⟩ := hw.wake
            exact ⟨w, hw1, hw2.tail hkeeps⟩

theorem State.Since.edits {cd : Option CoroId} {n : TokenId} {nn : Prop} (h : s0.Since e s)
    (he : Edits cd n nn s s') (hs0 : Sound s0) (hs : Sound s)
    (hcd : ∀ c, cd = some c → (s.coros c).env = .here) (hn : s0.nextToken ≤ n) : s0.Since e s' := by
  induction he with
  | refl => exact h
  | tail he he1 ih => exact ih.edit he1 hs0 (hs.edits hcd he) hn

/-! ### Transitions -/

theorem State.Since.quiet (h : s0.Since e s) (hq : Quiet s s') : s0.Since e s' where
  now := hq.now.trans h.now
  nextToken := by
    rw [hq.nextToken]
    exact h.nextToken
  pieces := h.pieces.tail (.inr hq)
  older := by
    rw [hq.events]
    exact h.older
  event := by
    refine h.event.imp (fun hw => ⟨hw.1.keep (by rw [hq.events]) fun _ _ => by rw [hq.tokens], ?_⟩)
      fun hw => ?_
    · rw [hq.scheduled]
      exact hw.2
    · obtain ⟨w, hw1, hw2⟩ := hw.wake
      exact ⟨by rw [hq.scheduled]; exact hw.scheduled, by rw [hq.queue]; exact hw.queue,
        by rw [hq.tokens]; exact hw.tokens, by rw [hq.events]; exact hw.later,
        w, hw1, hw2.tail ⟨.inr hq, hq.events ▸ List.prefix_rfl⟩⟩

/-- What happened to the event. -/
theorem State.Since.either (h : s0.Since e s) : s0.StillWaits e s ∨ s0.Woken e s :=
  h.event.imp_left And.left

/-- What a body does, from one transfer of control to the next, begun at `s0`. -/
theorem Ran.broadcast {c : CoroId} {act : Action P.User P.Frame P.Value P.Error}
    (hr : Ran False s c act s') (hs0 : Sound s0) (hs : Sound s) (hq : Quiet s0 s) (e : EventId) :
    s0.StillWaits e s' ∨ s0.Woken e s' := by
  obtain ⟨gone, own, ho⟩ := hs.owned
  have h0 : s0.Since e s := (State.Since.refl s0 e).quiet hq
  have hn : s0.nextToken ≤ s.nextToken := h0.nextToken
  have hw0 : s0.StillWaits e s :=
    (State.StillWaits.refl s0 e).keep (by rw [hq.events]) fun _ _ => by rw [hq.tokens]
  have hcloses : ∀ {r}, Closes c r s s' → s0.StillWaits e s' := fun hcl =>
    hw0.keep (by rw [hcl.events]) fun t ht => hcl.token t fun hin => by
      have hown := ho.event e t (by rw [hq.events]; exact ht)
      rw [ho.completion c t hin] at hown
      cases hown
  have htwo : ∀ {sm s1 : State P}, Edits none s.nextToken False s sm →
      Edits s.current sm.nextToken False sm s1 → s0.Since e s1 := fun {sm s1} hm he => by
    have hsm := hs.edits (by simp) hm
    have hx := Edits.ext hm
    exact (h0.edits hm hs0 hs (by simp) hn).edits he hs0 hsm
      (fun d hd => hsm.started.current d (hx.current.trans hd)) (Nat.le_trans hn hx.nextToken)
  cases hr with
  | continues s1 _ he hc =>
      exact ((h0.edits he hs0 hs (by simp) hn).quiet hc.quiet).either
  | throws a k sm s1 _ hact hthrow hm he hc => exact ((htwo hm he).quiet hc.quiet).either
  | suspends a a' k sm s1 hact hm he => exact ((htwo hm he).quiet (Quiet.suspend s1 c a' k)).either
  | returns v hact hv => exact .inl (hcloses (closes_returns hv (ho.completionNodup c)))
  | fails err hact => exact .inl (hcloses (closes_fails err (ho.completionNodup c)))

/-- A transition leaves all waiters of an event alone, or schedules all of them. -/
theorem Step.broadcast (hstep : Step s l s') (hs : Sound s) (e : EventId) :
    s.StillWaits e s' ∨ s.Woken e s' := by
  obtain ⟨gone, own, ho⟩ := hs.owned
  have h0 := State.StillWaits.refl s e
  cases hstep with
  | call f o =>
      have he : Edit none s.nextToken False s (s.newCoro (.user (P.start f)) o) :=
        .newCoro _ o (.user f) fun hf => hf.elim
      exact ((State.Since.refl s e).edit he hs hs (Nat.le_refl _)).either
  | bind a =>
      have he : Edits none s.nextToken False s (s.bind a) :=
        bind_call_edits hs.tidy a fun hf => hf.elim
      exact (State.Since.edits (.refl s e) he hs hs (by simp) (Nat.le_refl _)).either
  | elsewhere | advance => exact .inl (h0.keep rfl fun _ _ => rfl)
  | step t _ htop hst =>
      cases (step_stepped hst).did with
      | passes hp =>
          refine .inl (h0.keep (by rw [hp.events]) fun u hu => hp.token u fun i hi => ?_)
          have hown := ho.event e u hu
          rw [ho.output i u hi] at hown
          cases hown
      | starts c f _ he | resumes c a k r _ _ he =>
          exact .inl (h0.keep (by rw [he.events]) fun _ _ => by rw [he.tokens])
  | exec c _ hex =>
      obtain ⟨f, hst, hran⟩ := exec_ran hs.tidy hex fun _ _ hf => hf.elim
      have hs0 : Sound (s.ran f) := hs.quiet (.of_coros rfl) rfl rfl rfl hs.started.current
      exact hran.broadcast hs hs0 (.of_coros rfl) e
  | reset =>
      refine .inl (h0.keep ?_ fun _ _ => ?_) <;>
      · unfold State.reset
        rw [State.destroyAll_eq]

theorem coAwait_wake (s : State P) (c : CoroId) (e : EventId)
    (k : Result P.Value P.Error → P.Frame) :
    s.coAwait c (.wake e) k = (s.wake e).deliver c none k (.ok .unit) := by
  simp only [State.coAwait, Awaitable.wrap, Awaitable.copy, awaitBind, awaitReady]
  rfl

/-- `co_await e.wake()` schedules the waiters of `e`, and nothing else. -/
theorem Step.wakes {c : CoroId} {f : P.Frame} {k : Result P.Value P.Error → P.Frame}
    (hstep : Step s (.exec c) s') (hst : (s.coros c).status = .running f)
    (hact : s.next f = .await (.wake e) k) :
    s'.scheduled = s.scheduled ++ s.events e ∧ s'.queue = s.queue ++ s.events e ∧
      s'.events = Function.update s.events e [] := by
  cases hstep with
  | exec _ _ hex =>
      obtain ⟨g, hg, hdid⟩ := exec_acted hex
      obtain rfl : f = g := Status.running.inj (hst.symm.trans hg)
      rw [hact] at hdid
      cases hdid with
      | await =>
          rw [coAwait_wake]
          simp [State.wake, State.ran, State.deliver, State.setStatus, State.setCoro, State.log]

/-! ### Runs -/

theorem State.StillWaits.trans (h : s.StillWaits e s1) (h' : s1.StillWaits e s')
    (hle : s.nextToken ≤ s1.nextToken) : s.StillWaits e s' := by
  obtain ⟨us, hus, hnew⟩ := h.events
  obtain ⟨vs, hvs, hnew'⟩ := h'.events
  refine ⟨⟨us ++ vs, by rw [hvs, hus, List.append_assoc], fun u hu => ?_⟩, fun t ht => ?_⟩
  · exact (List.mem_append.mp hu).elim (hnew u) fun hu => Nat.le_trans hle (hnew' u hu)
  · rw [h'.tokens t (by rw [hus]; exact List.mem_append_left _ ht), h.tokens t ht]

/-- One transition of the run between `s` and `s'` wakes `e`, and its waiters never wait again. -/
def State.WokenOnce (C : State P → Label P → Prop) (s : State P) (e : EventId) (s' : State P) :
    Prop :=
  ∃ s1 l s2, Transition.Runs Step C s s1 ∧ C s1 l ∧ Step s1 l s2 ∧ Transition.Runs Step C s2 s' ∧
    s.StillWaits e s1 ∧ s1.Woken e s2 ∧ ∀ t ∈ s.events e, t < s'.nextToken ∧ ¬ s'.Held t

theorem Step.not_held (hstep : Step s l s') (hs : Sound s) (ht : t < s.nextToken)
    (h : ¬ s.Held t) : t < s'.nextToken ∧ ¬ s'.Held t := by
  have hm := hstep.moves hs
  have hlt : t < (s.popped l).nextToken := by cases l <;> exact ht
  refine ⟨Nat.lt_of_lt_of_le hlt hm.nextToken, fun hheld => h ?_⟩
  have := hm.held t hlt hheld
  cases l <;> exact this

/-- In every run, with exceptions, failing awaits and resets: the waiters of an event stay
registered, or a wake in one transition has scheduled all of them, together with those that were
registered behind them by then, in order and relative to the time of that transition; and the
`co_await` of a wake does this, and schedules nobody else. -/
theorem wake_wakes_all {C : State P → Label P → Prop} (h : Reachable C s)
    (hr : Transition.Runs Step C s s') (e : EventId) :
    (s.StillWaits e s' ∨ s.WokenOnce C e s') ∧
      ∀ c f k s'', (s'.coros c).status = .running f → s'.next f = .await (.wake e) k →
        Step s' (.exec c) s'' → s''.scheduled = s'.scheduled ++ s'.events e ∧
          s''.queue = s'.queue ++ s'.events e ∧ s''.events = Function.update s'.events e [] := by
  refine ⟨?_, fun c f k s'' hst hact hstep => hstep.wakes hst hact⟩
  have hall : Sound s' ∧ s.nextToken ≤ s'.nextToken ∧
      (s.StillWaits e s' ∨ s.WokenOnce C e s') := by
    induction hr with
    | refl => exact ⟨h.sound, Nat.le_refl _, .inl (.refl s e)⟩
    | @tail s1 s2 hr hstep ih =>
        obtain ⟨l, hc, hstep⟩ := hstep
        obtain ⟨hs1, hle, hcases⟩ := ih
        have hle' : s1.nextToken ≤ s2.nextToken := by
          have hm := (hstep.moves hs1).nextToken
          cases l <;> exact hm
        have hs2 := hstep.sound hs1
        refine ⟨hs2, Nat.le_trans hle hle', ?_⟩
        cases hcases with
        | inr hw =>
            obtain ⟨a, l', b, hra, hc', hstep', hrb, hw1, hw2, hold⟩ := hw
            exact .inr ⟨a, l', b, hra, hc', hstep', hrb.tail hc hstep, hw1, hw2,
              fun t ht => hstep.not_held hs1 (hold t ht).1 (hold t ht).2⟩
        | inl hw =>
            cases hstep.broadcast hs1 e with
            | inl hw' => exact .inl (hw.trans hw' hle)
            | inr hw' =>
                obtain ⟨us, hus, -⟩ := hw.events
                refine .inr ⟨s1, l, s2, hr, hc, hstep, .refl s2, hw, hw', fun t ht => ?_⟩
                have hq : t ∈ s2.queue := hw'.queue t (by rw [hus]; exact List.mem_append_left _ ht)
                obtain ⟨gone, own, ho⟩ := hs2.owned
                exact ⟨ho.queue_lt hq, ho.queue_notHeld hq⟩
  exact hall.2.2

/-- Process 0 waits for event 0. Process 1 wakes it and waits for it in one composition. -/
def bell : Program where
  User := Bool
  Body := Option Bool
  Memory := Unit
  Value := Unit
  Error := Unit
  start := some
  next b m _ := (m, match b with
    | some true => .await (.wait 0 2 PriorityConsts.inherit none) fun _ => none
    | some false => .await (.comp { cond := .allOf }
        [.wake 0, .wait 0 0 PriorityConsts.inherit none]) fun _ => none
    | none => .coReturn none)

namespace bell

def bound : State bell := (State.init ()).bind (.call true {})

def started : State bell :=
  ({ bound.pop 0 with current := some 0 }.setStatus 0 (.running (.user (some true)))).log
    (.started 0 0)

def waiting : State bell :=
  started.coAwait 0 (.wait 0 2 PriorityConsts.inherit none) fun _ => .user none

def ready : State bell := waiting.bind (.call false {})

def ringing : State bell :=
  ({ ready.pop 3 with current := some 1 }.setStatus 1 (.running (.user (some false)))).log
    (.started 1 0)

def rung : State bell := ringing.coAwait 1 (.comp { cond := .allOf }
  [.wake 0, .wait 0 0 PriorityConsts.inherit none]) fun _ => .user none

theorem waiting_reachable : Reachable (fun _ _ => True) waiting := by
  have hbound : Reachable (fun _ _ => True) bound :=
    (Reachable.init (P := bell) ()).next (l := .bind (.call true {})) trivial
      (.bind _ _ rfl (by decide))
  have hstarted : Reachable (fun _ _ => True) started :=
    hbound.next trivial (.step _ 0 _ (State.isTop_singleton rfl) rfl (by decide))
  exact hstarted.next (l := .exec 0) trivial (.exec _ _ _ rfl (by decide))

theorem rung_runs : Transition.Runs Step (fun _ _ => True) waiting rung :=
  (((Transition.Runs.refl waiting).tail (u := ready) (l := .bind (.call false {})) trivial
    (.bind _ _ rfl (by decide))).tail (u := ringing) trivial
        (.step _ 3 _ (State.isTop_singleton rfl) rfl (by decide))).tail
      (l := .exec 1) trivial (.exec _ _ _ rfl (by decide))

end bell

/-- Token 2 is woken, and token 6 comes in the same transition. -/
theorem wake_wakes_all_bell : bell.waiting.WokenOnce (fun _ _ => True) 0 bell.rung := by
  refine (wake_wakes_all bell.waiting_reachable bell.rung_runs 0).1.resolve_left fun h => ?_
  obtain ⟨us, hus, -⟩ := h.events
  have hhead : [6] = 2 :: us := hus
  exact absurd (List.cons.inj hhead).1 (by decide)

end Cxxdes
