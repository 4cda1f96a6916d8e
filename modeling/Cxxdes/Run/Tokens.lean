-- SUMMARY: What one transition can do to the tokens and to the handlers of compositions.
import Cxxdes.Await.Handlers
import Cxxdes.Run.Trace

/-!
# Tokens

A transition leaves the wiring of the tokens that exist as it is, and schedules only
tokens that are new or that an event, a process or a handler held. The handler of a
composition changes when a child of it is executed.
-/

namespace Cxxdes

variable {P : Program} {s s' s'' : State P}

/-- The token is held by an event, as a completion token, or as the output token of a
handler that has not fired. -/
def State.Held (s : State P) (t : TokenId) : Prop :=
  (∃ e, t ∈ s.events e) ∨ (∃ c, t ∈ (s.coros c).completionTokens) ∨
    ∃ h, (s.handlers h).completionTkn = some t

/-- What a transition does to the tokens that exist, apart from the one it executes. -/
structure Moves (s s' : State P) : Prop where
  nextToken : s.nextToken ≤ s'.nextToken
  nextHandler : s.nextHandler ≤ s'.nextHandler
  executed : s'.executed = s.executed
  fields : ∀ t < s.nextToken, (s'.tokens t).handler = (s.tokens t).handler ∧
    (s'.tokens t).coroData = (s.tokens t).coroData
  unheld : ∀ t < s.nextToken, ¬ s.Held t → s'.tokens t = s.tokens t
  held : ∀ t < s.nextToken, s'.Held t → s.Held t
  queue : ∀ t ∈ s'.queue, t ∈ s.queue ∨ s.Held t ∨ s.nextToken ≤ t
  pushed : ∃ ts, s'.scheduled = s.scheduled ++ ts ∧
    ∀ t ∈ ts, t < s'.nextToken ∧ ¬ s'.Held t ∧ (s.Held t ∨ s.nextToken ≤ t)
  reports : NewReports none s s'

theorem Owned.queue_notHeld {gone : List TokenId} {own : TokenId → Owner} (h : Owned gone s own)
    {t : TokenId} (ht : t ∈ s.queue) : ¬ s.Held t := by
  have hq := h.queue t ht
  rintro (⟨e, hl⟩ | ⟨c, hl⟩ | ⟨i, hl⟩)
  · rw [h.event e t hl] at hq; cases hq
  · rw [h.completion c t hl] at hq; cases hq
  · rw [h.output i t hl] at hq; cases hq

namespace Moves

theorem refl (s : State P) : Moves s s where
  nextToken := Nat.le_refl _
  nextHandler := Nat.le_refl _
  executed := rfl
  fields _ _ := ⟨rfl, rfl⟩
  unheld _ _ _ := rfl
  held _ _ h := h
  queue _ h := .inl h
  pushed := ⟨[], (List.append_nil _).symm, fun _ ht => by cases ht⟩
  reports := .refl none s

theorem trans (h : Moves s s') (h' : Moves s' s'') : Moves s s'' where
  nextToken := Nat.le_trans h.nextToken h'.nextToken
  nextHandler := Nat.le_trans h.nextHandler h'.nextHandler
  executed := h'.executed.trans h.executed
  fields t ht := by
    obtain ⟨h1, h2⟩ := h.fields t ht
    obtain ⟨h3, h4⟩ := h'.fields t (Nat.lt_of_lt_of_le ht h.nextToken)
    exact ⟨h3.trans h1, h4.trans h2⟩
  unheld t ht hno := by
    have hno' : ¬ s'.Held t := fun hh => hno (h.held t ht hh)
    exact (h'.unheld t (Nat.lt_of_lt_of_le ht h.nextToken) hno').trans (h.unheld t ht hno)
  held t ht hh := h.held t ht (h'.held t (Nat.lt_of_lt_of_le ht h.nextToken) hh)
  queue t ht := by
    have hheld : s'.Held t → t ∈ s.queue ∨ s.Held t ∨ s.nextToken ≤ t := fun hh => by
      cases Nat.lt_or_ge t s.nextToken with
      | inl hlt => exact .inr (.inl (h.held t hlt hh))
      | inr hge => exact .inr (.inr hge)
    rcases h'.queue t ht with hq | hh | hge
    · exact h.queue t hq
    · exact hheld hh
    · exact .inr (.inr (Nat.le_trans h.nextToken hge))
  pushed := by
    obtain ⟨ts, hts, hnew⟩ := h.pushed
    obtain ⟨us, hus, hnew'⟩ := h'.pushed
    refine ⟨ts ++ us, by rw [hus, hts, List.append_assoc], fun t ht => ?_⟩
    cases List.mem_append.mp ht with
    | inl ht =>
        obtain ⟨hlt, hno, hor⟩ := hnew t ht
        exact ⟨Nat.lt_of_lt_of_le hlt h'.nextToken, fun hh => hno (h'.held t hlt hh), hor⟩
    | inr ht =>
        obtain ⟨hlt, hno, hor⟩ := hnew' t ht
        refine ⟨hlt, hno, ?_⟩
        cases Nat.lt_or_ge t s.nextToken with
        | inr hge => exact .inr hge
        | inl hlt =>
            cases hor with
            | inl hh => exact .inl (h.held t hlt hh)
            | inr hge => exact .inr (Nat.le_trans h.nextToken hge)
  reports := h.reports.trans h'.reports h.nextHandler h'.nextHandler fun t ht => (h'.fields t ht).1

/-- Nothing about tokens changes. -/
theorem same (hq : Quiet s s') : Moves s s' := by
  have hheld : ∀ t, s'.Held t → s.Held t := fun t hh => by
    unfold State.Held at hh ⊢
    rw [hq.events, hq.handlers] at hh
    simpa only [hq.completion] using hh
  exact {
    nextToken := Nat.le_of_eq hq.nextToken.symm
    nextHandler := Nat.le_of_eq hq.nextHandler.symm
    executed := hq.executed
    fields := fun t _ => by rw [hq.tokens]; exact ⟨rfl, rfl⟩
    unheld := fun t _ _ => by rw [hq.tokens]
    held := fun t _ hh => hheld t hh
    queue := fun t ht => .inl (hq.queue ▸ ht)
    pushed := ⟨[], by rw [hq.scheduled, List.append_nil], fun _ ht => by cases ht⟩
    reports := fun t h hle hlt => absurd (hq.nextToken ▸ hlt) (Nat.not_lt.mpr hle) }

end Moves

/-! ### Awaiting -/

theorem Edit.pushed {cd : Option CoroId} {n : TokenId} {nn : Prop} (he : Edit cd n nn s s') :
    ∃ ts, s'.scheduled = s.scheduled ++ ts ∧ s'.queue = s.queue ++ ts ∧
      ∀ t ∈ ts, (∃ e, t ∈ s.events e) ∨ s.nextToken ≤ t := by
  cases he with
  | newCoro | setObject | newCompletion | newWaiter | newHandler | install =>
      exact ⟨[], (List.append_nil _).symm, (List.append_nil _).symm, fun _ ht => by cases ht⟩
  | startCoro | timeout =>
      exact ⟨[s.nextToken], rfl, rfl, fun t ht =>
        .inr (Nat.le_of_eq (List.mem_singleton.mp ht).symm)⟩
  | wake evt =>
      exact ⟨s.events evt, by simp [State.wake], by simp [State.wake], fun t ht => .inl ⟨evt, ht⟩⟩

theorem Edits.pushed {cd : Option CoroId} {n : TokenId} {nn : Prop} (he : Edits cd n nn s s') :
    ∃ ts, s'.scheduled = s.scheduled ++ ts ∧ s'.queue = s.queue ++ ts ∧
      ∀ t ∈ ts, (∃ e, t ∈ s.events e) ∨ s.nextToken ≤ t := by
  induction he with
  | refl => exact ⟨[], (List.append_nil _).symm, (List.append_nil _).symm, fun _ ht => by cases ht⟩
  | @tail s1 s2 h1 he ih =>
      obtain ⟨ts, hts, hq, hnew⟩ := ih
      obtain ⟨us, hus, hq', hnew'⟩ := he.pushed
      refine ⟨ts ++ us, by rw [hus, hts, List.append_assoc], by rw [hq', hq, List.append_assoc], ?_⟩
      intro t ht
      cases List.mem_append.mp ht with
      | inl ht => exact hnew t ht
      | inr ht =>
          have hx := Edits.ext h1
          cases hnew' t ht with
          | inl hev =>
              obtain ⟨e, hev⟩ := hev
              exact (hx.eventOld e t hev).imp (fun h => ⟨e, h⟩) id
          | inr hge => exact .inr (Nat.le_trans hx.nextToken hge)

/-- An await that installs no handler. -/
theorem Edits.reports {cd : Option CoroId} {nn : Prop} (he : ∀ n, Edits cd n nn s s') :
    NewReports none s s' := fun _ _ hle hlt hh =>
  absurd ((he s'.nextToken).handler_old (Nat.le_refl _) hlt hh).1 (Nat.not_lt.mpr hle)

theorem Moves.edits {cd : Option CoroId} {n : TokenId} {nn : Prop} (he : Edits cd n nn s s')
    (hn : s.nextToken ≤ n) (hs' : Sound s') (hr : NewReports none s s') : Moves s s' := by
  obtain ⟨gone, own, ho⟩ := hs'.owned
  have hx := Edits.ext he
  obtain ⟨ts, hts, hq, hnew⟩ := he.pushed
  have hheld : ∀ t < s.nextToken, s'.Held t → s.Held t := by
    rintro t hlt (⟨e, hh⟩ | ⟨c, hh⟩ | ⟨i, hh⟩)
    · exact .inl ⟨e, (hx.eventOld e t hh).resolve_right (Nat.not_le.mpr hlt)⟩
    · exact .inr (.inl ⟨c, (hx.completionOld c t hh).resolve_right (Nat.not_le.mpr hlt)⟩)
    · exact .inr (.inr ⟨i, (hx.outputOld i t hh).resolve_right (Nat.not_le.mpr hlt)⟩)
  exact {
    nextToken := hx.nextToken
    nextHandler := hx.nextHandler
    executed := hx.executed
    fields := fun t ht => by
      obtain ⟨h1, h2, -⟩ := hx.tokenFields t (Nat.lt_of_lt_of_le ht hn) ht
      exact ⟨h1, h2⟩
    unheld := fun t ht hno =>
      hx.token t (Nat.lt_of_lt_of_le ht hn) ht fun e he => hno (.inl ⟨e, he⟩)
    held := hheld
    queue := fun t ht => by
      rcases hx.queueOld t ht with h1 | h1 | h1
      · exact .inl h1
      · exact .inr (.inr h1)
      · exact .inr (.inl (.inl h1))
    pushed := by
      refine ⟨ts, hts, fun t ht => ?_⟩
      have hmem : t ∈ s'.queue := by rw [hq]; exact List.mem_append_right _ ht
      exact ⟨ho.queue_lt hmem, ho.queue_notHeld hmem, (hnew t ht).imp .inl id⟩
    reports := hr }

/-! ### co_await -/

/-- Whether `co_await a` in the body of `c` leaves nothing behind if its `await_suspend`
throws. -/
def State.harmless (s : State P) (c : CoroId) (a : Awaitable P.User) : Bool :=
  match awaitBind (s.coros c).priority (a.wrap s) s with
  | (.error _, _) => true
  | (.ok a, s) => Cxxdes.harmless s.current (awaitReady a s).2.1 (awaitReady a s).2.2

/-- What `co_await a` in the body of `c` does up to `await_suspend`, with what
`await_suspend` relies on. -/
inductive CoAwaits (s : State P) (c : CoroId) (a : Awaitable P.User)
    (k : Result P.Value P.Error → P.Frame) : State P → Prop where
  | continues (s1 : State P) (target : Option CoroId) (r : Result P.Value P.Error)
      (he : ∀ n, Edits none n False s s1) : CoAwaits s c a k (s1.deliver c target k r)
  | throws (a' : Awaitable P.User) (sm s1 : State P) (target : Option CoroId) (e : Exn P.Error)
      (hm : ∀ n, Edits none n False s sm) (hnh : sm.nextHandler = s.nextHandler)
      (ha : Suspendable sm a') (hask : a'.Asked)
      (hthrows : s.suspendThrows c a = true) (hharm : s.harmless c a = harmless s.current a' sm)
      (h : awaitSuspend s.current a' sm = (.error e, s1)) :
      CoAwaits s c a k (s1.deliver c target k (.error e))
  | suspends (a1 a' : Awaitable P.User) (sm s1 : State P) (hm : ∀ n, Edits none n False s sm)
      (hnh : sm.nextHandler = s.nextHandler) (ha : Suspendable sm a1) (hask : a1.Asked)
      (href : a1.isRef = false)
      (h : awaitSuspend s.current a1 sm = (.ok a', s1)) :
      CoAwaits s c a k (s1.suspend c a' k)

theorem coAwait_coAwaits (hs : s.Tidy False) (c : CoroId) (a : Awaitable P.User)
    (k : Result P.Value P.Error → P.Frame) : CoAwaits s c a k (s.coAwait c a k) := by
  have hw : False → (a.wrap s).NonNeg := fun hf => hf.elim
  have hbind : ∀ n, Edits none n False s (awaitBind (s.coros c).priority (a.wrap s) s).2 :=
    fun n => awaitBind_edits (s.coros c).priority (a.wrap s) s hs hw
  -- what is known once the awaitable was asked and is not ready
  have hready : ∀ {a1 a2 : Awaitable P.User} {s1 s2 : State P},
      awaitBind (s.coros c).priority (a.wrap s) s = (.ok a1, s1) →
      awaitReady a1 s1 = (false, a2, s2) →
      (∀ n, Edits none n False s s2) ∧ s2.current = s.current ∧ s2.nextHandler = s.nextHandler ∧
        Suspendable s2 a2 ∧ a2.Asked ∧ a2.isRef = false ∧
        s.harmless c a = harmless s.current a2 s2 := by
    intro a1 a2 s1 s2 hb hr
    have hbound := (awaitBind_bound hs hw hb).1
    have hsus := awaitReady_suspendable hbound
    have hask := awaitReady_asked a1 s1
    have href := awaitReady_isRef s1 (awaitBind_isRef (wrap_isRef s a) hb)
    have hedits : ∀ n, Edits none n False s1 (awaitReady a1 s1).2.2 := fun n =>
      awaitReady_edits a1 s1
    have hnh1 := awaitBind_nextHandler (s.coros c).priority (a.wrap s) s
    have hnh2 := awaitReady_nextHandler a1 s1
    rw [hb] at hbind hnh1
    rw [hr] at hsus hask href hedits hnh2
    have he := fun n => (hbind n).trans (hedits n)
    refine ⟨he, (Edits.ext (he 0)).current, hnh2.trans hnh1, hsus rfl, hask, href, ?_⟩
    have hcur : s1.current = s.current := (Edits.ext (hbind 0)).current
    unfold State.harmless
    simp only [hb, hr, hcur]
  generalize hco : s.coAwait c a k = s'
  have haw := coAwait_awaits s c a k
  rw [hco] at haw
  cases haw with
  | unbound e s1 hb =>
      rw [hb] at hbind
      exact .continues s1 _ _ hbind
  | ready a1 a2 s1 s2 s3 r hb hr hres =>
      rw [hb] at hbind
      have hedits : ∀ n, Edits none n False s1 (awaitReady a1 s1).2.2 := fun n =>
        awaitReady_edits a1 s1
      rw [hr] at hedits
      exact .continues s3 _ _ fun n =>
        ((hbind n).trans (hedits n)).trans (awaitResume_edits_of hres)
  | throws a1 a2 s1 s2 s3 e hb hr hsus =>
      obtain ⟨he, hcur, hnh, ha, hask, href, hharm⟩ := hready hb hr
      have hthrows := Awaits.suspendThrows hb hr hsus
      rw [hcur] at hsus
      exact .throws a2 s2 s3 _ e he hnh ha hask hthrows hharm hsus
  | suspends a1 a2 a3 s1 s2 s3 hb hr hsus =>
      obtain ⟨he, hcur, hnh, ha, hask, href, -⟩ := hready hb hr
      rw [hcur] at hsus
      exact .suspends a2 a3 s2 s3 he hnh ha hask href hsus

/-! ### Actions and executed tokens -/

/-- The completion tokens of a process that ends are scheduled. -/
theorem Moves.doReturn (s : State P) (c : CoroId) (r : Result P.Value P.Error)
    (hs' : Sound (s.doReturn c r)) : Moves s (s.doReturn c r) := by
  obtain ⟨gone, own, ho⟩ := hs'.owned
  have hsch : (s.doReturn c r).scheduled = s.scheduled ++ (s.coros c).completionTokens := by
    rw [State.doReturn_eq]; simp
  have hq : (s.doReturn c r).queue = s.queue ++ (s.coros c).completionTokens := by
    rw [State.doReturn_eq]; simp
  have hnt : (s.doReturn c r).nextToken = s.nextToken := by rw [State.doReturn_eq]; simp
  have hnh : (s.doReturn c r).nextHandler = s.nextHandler := by rw [State.doReturn_eq]; simp
  have hfields := doReturn_fields s c r
  have hheld : ∀ t, (s.doReturn c r).Held t → s.Held t := by
    rw [State.doReturn_eq]
    rintro t (⟨e, hh⟩ | ⟨c', hh⟩ | ⟨i, hh⟩)
    · exact .inl ⟨e, by simpa using hh⟩
    · refine .inr (.inl ⟨c', ?_⟩)
      by_cases hc : c' = c
      · subst hc; simp at hh
      · simpa [Function.update_of_ne hc] using hh
    · exact .inr (.inr ⟨i, by simpa using hh⟩)
  exact {
    nextToken := Nat.le_of_eq hnt.symm
    nextHandler := Nat.le_of_eq hnh.symm
    executed := by rw [State.doReturn_eq]; simp
    fields := fun t _ => hfields t
    unheld := fun t _ hno => by
      rw [State.doReturn_eq]
      exact (s.releaseAll_of_notMem fun hm => hno (.inr (.inl ⟨c, hm⟩))).1
    held := fun t _ => hheld t
    queue := fun t ht => by
      rw [hq] at ht
      exact (List.mem_append.mp ht).imp id fun h => .inl (.inr (.inl ⟨c, h⟩))
    pushed := by
      refine ⟨_, hsch, fun t ht => ?_⟩
      have hmem : t ∈ (s.doReturn c r).queue := by rw [hq]; exact List.mem_append_right _ ht
      exact ⟨ho.queue_lt hmem, ho.queue_notHeld hmem, .inl (.inr (.inl ⟨c, ht⟩))⟩
    reports := fun t h hle hlt => absurd (hnt ▸ hlt) (Nat.not_lt.mpr hle) }

/-- Tokens that keep their wiring. -/
theorem Moves.setTokens {tk : TokenId → Token P.Error}
    (htk : ∀ t, (tk t).handler = (s.tokens t).handler ∧ (tk t).coroData = (s.tokens t).coroData)
    (hno : ∀ t, ¬ s.Held t → tk t = s.tokens t) : Moves s { s with tokens := tk } where
  nextToken := Nat.le_refl _
  nextHandler := Nat.le_refl _
  executed := rfl
  fields t _ := htk t
  unheld t _ := hno t
  held _ _ h := h
  queue _ h := .inl h
  pushed := ⟨[], (List.append_nil _).symm, fun _ ht => by cases ht⟩
  reports _ _ hle hlt := absurd hlt (Nat.not_lt.mpr hle)

/-- The handler changes only what it counts and its output token. -/
theorem Moves.setHandler {i : HandlerId} {hd : Handler}
    (hout : ∀ t, hd.completionTkn = some t → (s.handlers i).completionTkn = some t) :
    Moves s (s.setHandler i hd) where
  nextToken := Nat.le_refl _
  nextHandler := Nat.le_refl _
  executed := rfl
  fields _ _ := ⟨rfl, rfl⟩
  unheld _ _ _ := rfl
  held t _ := by
    rintro (hh | hh | ⟨j, hh⟩)
    · exact .inl hh
    · exact .inr (.inl hh)
    · refine .inr (.inr ⟨j, ?_⟩)
      by_cases hj : j = i
      · subst hj
        exact hout t (by simpa [State.setHandler] using hh)
      · simpa [State.setHandler, Function.update_of_ne hj] using hh
  queue _ h := .inl h
  pushed := ⟨[], (List.append_nil _).symm, fun _ ht => by cases ht⟩
  reports _ _ hle hlt := absurd hlt (Nat.not_lt.mpr hle)

/-- An await that installs no handler. -/
theorem Sound.moves (hs : Sound s) (he : ∀ n, Edits none n False s s') : Sound s' ∧ Moves s s' := by
  have hs' := hs.edits (by simp) (he 0)
  exact ⟨hs', .edits (he s.nextToken) (Nat.le_refl _) hs' (Edits.reports he)⟩

theorem State.Bounded.of_wired (h : Wired s) : s.Bounded := fun t i _ hi => h.bounded t i hi

/-- `await_suspend`, also when it throws. -/
theorem awaitSuspend_moves {cd : Option CoroId} {a : Awaitable P.User} (hs : Sound s)
    (hcd : ∀ c, cd = some c → (s.coros c).env = .here) (ha : Suspendable s a) (hask : a.Asked) :
    Sound (awaitSuspend cd a s).2 ∧ Moves s (awaitSuspend cd a s).2 := by
  have he := (awaitSuspend_spec cd a s hs.tidy ha fun hf => hf.elim).1
  have hr := (awaitSuspend_handlers cd a s hs.tidy (.of_wired hs.wired) ha hask).reports
  have hs' := hs.edits hcd he
  exact ⟨hs', .edits he (Nat.le_refl _) hs' hr⟩

theorem CoAwaits.moves {c : CoroId} {a : Awaitable P.User}
    {k : Result P.Value P.Error → P.Frame} (h : CoAwaits s c a k s') (hs : Sound s) :
    Moves s s' := by
  have hcur : ∀ {sm : State P}, Sound sm → (∀ n, Edits none n False s sm) →
      ∀ c, s.current = some c → (sm.coros c).env = .here := fun hsm hm c hc =>
    hsm.started.current c ((Edits.ext (hm 0)).current.trans hc)
  cases h with
  | continues s1 target r he => exact (hs.moves he).2.trans (.same (.deliver s1 c target k r))
  | throws a' sm s1 target e hm hnh ha hask hthrows hharm hr =>
      obtain ⟨hsm, h1⟩ := hs.moves hm
      obtain ⟨-, h2⟩ := awaitSuspend_moves hsm (hcur hsm hm) ha hask
      rw [hr] at h2
      exact (h1.trans h2).trans (.same (.deliver s1 c target k _))
  | suspends a1 a' sm s1 hm hnh ha hask href hr =>
      obtain ⟨hsm, h1⟩ := hs.moves hm
      obtain ⟨-, h2⟩ := awaitSuspend_moves hsm (hcur hsm hm) ha hask
      rw [hr] at h2
      exact (h1.trans h2).trans (.same (.suspend s1 c a' k))

theorem Acted.moves {c : CoroId} {act : Action P.User P.Frame P.Value P.Error}
    (h : Acted s c act s') (hs : Sound s) (hs' : Sound s') : Moves s s' := by
  cases h with
  | tau f => exact .same (.setStatus s c _)
  | await a k => exact (coAwait_coAwaits hs.tidy c a k).moves hs
  | create f o k =>
      have he : ∀ n, Edits none n False s (s.newCoro (.user (P.start f)) o) := fun n =>
        .single (.newCoro _ o (.user f) fun hf => hf.elim)
      exact (hs.moves he).2.trans (.same (.setStatus _ c _))
  | declare p k =>
      have hq : Quiet s (s.newObject p) := .of_coros rfl
      exact .same (hq.trans (.setStatus _ c _))
  | move o k p =>
      have hq : Quiet s (s.moveObject o) := .of_coros rfl
      exact .same (hq.trans (.setStatus _ c _))
  | moved o k r =>
      have hq : Quiet s (s.moveObject o) := .of_coros rfl
      exact .same (hq.trans (.deliver _ c _ _ r))
  | bind p k s1 hr =>
      have he : ∀ n, Edits none n False s (s.detach p 0).2 := fun n =>
        detach_edits hs.tidy.fresh p 0 fun hf => hf.elim
      rw [hr] at he
      exact (hs.moves he).2.trans (.same (.setStatus _ c _))
  | bindError p k e s1 hr =>
      have he : ∀ n, Edits none n False s (s.detach p 0).2 := fun n =>
        detach_edits hs.tidy.fresh p 0 fun hf => hf.elim
      rw [hr] at he
      exact (hs.moves he).2.trans (.same (.setStatus _ c _))
  | returns v hv hnull =>
      have hq : Quiet s (s.setCoro c { s.coros c with returnValue := v }) := .setCoro s c _ rfl rfl
      exact (Moves.same hq).trans (.doReturn _ c _ hs')
  | fails e hnull =>
      have h1 : Moves s (s.propagateException c e) := by
        have hfields := propagateException_fields s c e
        rw [State.propagateException_eq] at hfields ⊢
        exact .setTokens hfields fun t hno => if_neg fun hm => hno (.inr (.inl ⟨c, hm⟩))
      exact h1.trans (.doReturn _ c _ hs')

/-- The token that is executed is not among those the transition schedules. -/
theorem Stepped.moves {t : TokenId} (h : Stepped s t s') (hs : Sound s) (ht : t ∈ s.queue)
    (hs' : Sound s') : Moves (s.pop t) s' := by
  have hp := hs.pop ht
  have hlog : ∀ (s1 : State P) (o : Obs P.Value P.Error), Moves s1 (s1.log o) := fun s1 o =>
    .same (.of_coros rfl)
  cases h with
  | rethrow i e hh he =>
      have h1 : Moves (s.pop t) ((s.pop t).count i) := .setHandler fun _ h => h
      exact h1.trans (hlog _ _)
  | fire i out hh he hout hf =>
      obtain ⟨gone, own, ho⟩ := hs'.owned
      have hfields := hp.wired.fire_fields hh hout
      have h1 : Moves (s.pop t) { ((s.pop t).fire i t out) with
          handlers := s.handlers, queue := (s.pop t).queue, scheduled := s.scheduled,
          pushed := s.pushed, legal := s.legal } :=
        .setTokens hfields fun u hno => by
          have hne : u ≠ out := fun hu => hno (.inr (.inr ⟨i, by rw [hu]; exact hout⟩))
          exact Function.update_of_ne hne ..
      have h2 : Moves (s.pop t) { ((s.pop t).fire i t out) with
          queue := (s.pop t).queue, scheduled := s.scheduled, pushed := s.pushed,
          legal := s.legal } :=
        h1.trans (.setHandler (i := i) fun _ h => by cases h)
      have hmem : out ∈ ((s.pop t).fire i t out).queue := List.mem_append_right _ (by simp)
      exact { h2 with
        queue := fun u hu => (List.mem_append.mp hu).imp id fun hu =>
          .inl (.inr (.inr ⟨i, by rw [List.mem_singleton.mp hu]; exact hout⟩))
        pushed := ⟨[out], rfl, fun u hu => by
          obtain rfl := List.mem_singleton.mp hu
          exact ⟨ho.queue_lt hmem, ho.queue_notHeld hmem, .inl (.inr (.inr ⟨i, hout⟩))⟩⟩ }
  | count i hh he hf => exact .setHandler fun _ h => h
  | start c f hh hc hst =>
      have h1 : Quiet (s.pop t) { s.pop t with current := some c } := .of_coros rfl
      exact (Moves.same (h1.trans (.setStatus _ c _))).trans (hlog _ _)
  | resume c a k r s1 hh hc hst hr =>
      have hq : Quiet (s.pop t) { s.pop t with current := some c } := .of_coros rfl
      have h0 : Sound { s.pop t with current := some c } :=
        hp.quiet hq rfl rfl rfl fun c' hc' => by cases hc'; exact hs.started.token t c hc
      have h1 := (h0.moves fun n => awaitResume_edits_of hr).2
      exact ((Moves.same hq).trans h1).trans ((hlog _ _).trans (.same (.deliver _ c a.target k r)))
  | raise e hh hc he => exact hlog _ _
  | skip hh hc he => exact .refl _

/-! ### Transitions -/

/-- The state from which the rest of a transition goes on: `step()` has popped its token. -/
def State.popped (s : State P) : Label P → State P
  | .step t => s.pop t
  | _ => s

theorem exec_moves {c : CoroId} (hs : Sound s) (hex : s.exec c = .ok s') : Moves s s' := by
  obtain ⟨f, hst, hact⟩ := exec_acted hex
  have hq : Quiet s (s.ran f) := .of_coros rfl
  have h1 : Sound (s.ran f) := hs.quiet hq rfl rfl rfl hs.started.current
  exact (Moves.same hq).trans (hact.moves h1 (hs.exec hex))

theorem Step.moves {l : Label P} (hstep : Step s l s') (hs : Sound s) :
    Moves (s.popped l) s' := by
  have hs' := hstep.sound hs
  cases hstep with
  | call f o =>
      have he : ∀ n, Edits none n False s (s.newCoro (.user (P.start f)) o) := fun n =>
        .single (.newCoro _ o (.user f) fun hf => hf.elim)
      exact (hs.moves he).2
  | bind a =>
      have he : ∀ n, Edits none n False s (s.bind a) := fun n =>
        bind_call_edits hs.tidy a fun hf => hf.elim
      exact (hs.moves he).2
  | elsewhere c henv => exact .same (.setCoro s c _ rfl rfl)
  | step t _ htop hst => exact (step_stepped hst).moves hs htop.1 hs'
  | advance deadline =>
      exact ⟨Nat.le_refl _, Nat.le_refl _, rfl, fun _ _ => ⟨rfl, rfl⟩, fun _ _ _ => rfl,
        fun _ _ h => h, fun _ h => .inl h, ⟨[], (List.append_nil _).symm, fun _ ht => by cases ht⟩,
        fun _ _ hle hlt => absurd hlt (Nat.not_lt.mpr hle)⟩
  | exec c _ hex => exact exec_moves hs hex
  | reset =>
      unfold State.reset
      rw [State.destroyAll_eq]
      refine ⟨Nat.le_refl _, Nat.le_refl _, rfl, fun _ _ => ⟨rfl, rfl⟩, fun _ _ _ => rfl, ?_,
        fun _ ht => (by cases ht),
        ⟨[], (List.append_nil _).symm, fun _ ht => by cases ht⟩,
        fun _ _ hle hlt => absurd hlt (Nat.not_lt.mpr hle)⟩
      rintro t - (hh | ⟨c, hh⟩ | hh)
      · exact .inl hh
      · refine .inr (.inl ⟨c, ?_⟩)
        simp only at hh
        split at hh <;> exact hh
      · exact .inr (.inr hh)

/-- What a transition with label `l` can make of handler `h`. -/
inductive State.HandlerNext (s : State P) (l : Label P) (h : HandlerId) (s' : State P) : Prop where
  | keeps (hno : ∀ t, l = .step t → (s.tokens t).handler ≠ some h)
      (heq : s'.handlers h = s.handlers h)
  | counts (t : TokenId) (hl : l = .step t) (hh : (s.tokens t).handler = some h)
      (hno : (∃ e, (s.tokens t).eptr = some e) ∨ (s.handlers h).completionTkn = none ∨
        s.fires h = false)
      (heq : s'.handlers h =
        { s.handlers h with remaining := sizeDecr (s.handlers h).remaining })
  | fires (t out : TokenId) (hl : l = .step t) (hh : (s.tokens t).handler = some h)
      (he : (s.tokens t).eptr = none) (hout : (s.handlers h).completionTkn = some out)
      (hf : s.fires h = true) (hsch : s'.scheduled = s.scheduled ++ [out])
      (heq : s'.handlers h = { s.handlers h with
        remaining := sizeDecr (s.handlers h).remaining, completionTkn := none })

/-- A body does not change the handlers that exist. -/
theorem Ran.handler {nn : Prop} {c : CoroId} {act : Action P.User P.Frame P.Value P.Error}
    (hr : Ran nn s c act s') {h : HandlerId} (hh : h < s.nextHandler) :
    s'.handlers h = s.handlers h := by
  cases hr with
  | continues s1 _ he hc => rw [hc.quiet.handlers, he.ext.handler h hh]
  | throws a k sm s1 _ hact hthrow hm he hc =>
      have hlt := Nat.lt_of_lt_of_le hh hm.ext.nextHandler
      rw [hc.quiet.handlers, he.ext.handler h hlt, hm.ext.handler h hh]
  | suspends a a' k sm s1 hact hm he =>
      have hlt := Nat.lt_of_lt_of_le hh hm.ext.nextHandler
      rw [(Quiet.suspend s1 c a' k).handlers, he.ext.handler h hlt, hm.ext.handler h hh]
  | returns v => rw [State.doReturn_eq]; simp [State.setCoro]
  | fails e => rw [State.doReturn_eq, State.propagateException_eq]; simp

theorem Stepped.handler {t : TokenId} (hst : Stepped s t s') {h : HandlerId}
    (hh : h < s.nextHandler) : s.HandlerNext (.step t) h s' := by
  have hkeeps : (s.tokens t).handler ≠ some h → s'.handlers h = s.handlers h →
      s.HandlerNext (.step t) h s' := fun hno heq =>
    .keeps (fun u hu => by cases hu; exact hno) heq
  have hother : ∀ {i}, (s.tokens t).handler = some i → i ≠ h → (s.tokens t).handler ≠ some h :=
    fun hi hne heq => hne (Option.some.inj (hi.symm.trans heq))
  have hnone : (s.tokens t).handler = none → (s.tokens t).handler ≠ some h := fun hn => by simp [hn]
  cases hst with
  | rethrow i e hi he =>
      by_cases hne : i = h
      · subst hne
        exact .counts t rfl hi (.inl ⟨e, he⟩) (Function.update_self ..)
      · exact hkeeps (hother hi hne) (Function.update_of_ne (Ne.symm hne) ..)
  | fire i out hi he hout hf =>
      by_cases hne : i = h
      · subst hne
        exact .fires t out rfl hi he hout hf rfl (Function.update_self ..)
      · exact hkeeps (hother hi hne) (Function.update_of_ne (Ne.symm hne) ..)
  | count i hi he hf =>
      by_cases hne : i = h
      · subst hne
        exact .counts t rfl hi (.inr hf) (Function.update_self ..)
      · exact hkeeps (hother hi hne) (Function.update_of_ne (Ne.symm hne) ..)
  | start c f hi => exact hkeeps (hnone hi) rfl
  | resume c a k r s1 hi hc hst hr =>
      have he : Edits none 0 False { s.pop t with current := some c } s1 := awaitResume_edits_of hr
      exact hkeeps (hnone hi) (he.ext.handler h hh)
  | raise e hi => exact hkeeps (hnone hi) rfl
  | skip hi => exact hkeeps (hnone hi) rfl

theorem Step.handler {l : Label P} (hstep : Step s l s') (hs : Sound s) {h : HandlerId}
    (hh : h < s.nextHandler) : s.HandlerNext l h s' := by
  cases hstep with
  | call f o => exact .keeps (fun _ hl => by cases hl) rfl
  | bind a =>
      have he : Edits none 0 False s (s.bind a) := bind_call_edits hs.tidy a fun hf => hf.elim
      exact .keeps (fun _ hl => by cases hl) (he.ext.handler h hh)
  | elsewhere c henv => exact .keeps (fun _ hl => by cases hl) rfl
  | step t _ htop hst => exact (step_stepped hst).handler hh
  | advance deadline => exact .keeps (fun _ hl => by cases hl) rfl
  | exec c _ hex =>
      obtain ⟨f, hst, hran⟩ := exec_ran hs.tidy hex fun _ _ hf => hf.elim
      exact .keeps (fun _ hl => by cases hl) (hran.handler hh)
  | reset =>
      refine .keeps (fun _ hl => by cases hl) ?_
      unfold State.reset
      rw [State.destroyAll_eq]

theorem State.HandlerNext.cond {l : Label P} {h : HandlerId} (hn : s.HandlerNext l h s') :
    (s'.handlers h).cond = (s.handlers h).cond := by
  cases hn with
  | keeps _ heq => rw [heq]
  | counts t _ _ _ heq => rw [heq]
  | fires t out _ _ _ _ _ _ heq => rw [heq]

end Cxxdes
