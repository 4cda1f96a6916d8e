-- SUMMARY: What an await function leaves alone: the frame relation `Ext` of a chain of edits.
import Cxxdes.Await.Edit
import Cxxdes.Core.Update

/-!
# Frame conditions

`Ext n s s'` says how `s'` extends `s` when all an awaitable did was to add
tokens, handlers and processes and to wake events: the old ones are as they were.
Tokens from `n` on may have been given a handler.
-/

namespace Cxxdes

variable {P : Program}

/-- The part of a process that awaiting can change is its binding, and its
completion tokens, of which new ones are added. -/
structure CoroExt (d d' : CoroData P) : Prop where
  unique : d'.unique = d.unique
  void : d'.void = d.void
  latency : d'.latency = d.latency
  status : d'.status = d.status
  returnValue : d'.returnValue = d.returnValue
  bound : d.env ≠ .unbound → d'.env = d.env ∧ d'.startToken = d.startToken ∧
    d'.priority = d.priority ∧ d'.parent = d.parent
  shared : d.unique = false → ∀ t ∈ d.completionTokens, t ∈ d'.completionTokens

structure Ext (n : TokenId) (s s' : State P) : Prop where
  now : s'.now = s.now
  current : s'.current = s.current
  memory : s'.memory = s.memory
  executed : s'.executed = s.executed
  nextToken : s.nextToken ≤ s'.nextToken
  nextHandler : s.nextHandler ≤ s'.nextHandler
  nextCoro : s.nextCoro ≤ s'.nextCoro
  queue : ∀ t ∈ s.queue, t ∈ s'.queue
  queueOld : ∀ t ∈ s'.queue, t ∈ s.queue ∨ s.nextToken ≤ t ∨ ∃ e, t ∈ s.events e
  event : ∀ e, ∀ t ∈ s.events e, t ∈ s'.events e ∨ t ∈ s'.queue
  eventOld : ∀ e, ∀ t ∈ s'.events e, t ∈ s.events e ∨ s.nextToken ≤ t
  token : ∀ t < n, t < s.nextToken → (∀ e, t ∉ s.events e) → s'.tokens t = s.tokens t
  tokenFields : ∀ t < n, t < s.nextToken →
    (s'.tokens t).handler = (s.tokens t).handler ∧
    (s'.tokens t).coroData = (s.tokens t).coroData ∧
    (s'.tokens t).eptr = (s.tokens t).eptr
  handler : ∀ h < s.nextHandler, s'.handlers h = s.handlers h
  coro : ∀ c < s.nextCoro, CoroExt (s.coros c) (s'.coros c)
  object : ∀ h, (s'.objects h).1 = (s.objects h).1
  completionOld : ∀ c, ∀ t ∈ (s'.coros c).completionTokens,
    t ∈ (s.coros c).completionTokens ∨ s.nextToken ≤ t
  outputOld : ∀ h t, (s'.handlers h).completionTkn = some t →
    (s.handlers h).completionTkn = some t ∨ s.nextToken ≤ t

theorem CoroExt.refl (d : CoroData P) : CoroExt d d where
  unique := rfl
  void := rfl
  latency := rfl
  status := rfl
  returnValue := rfl
  bound _ := ⟨rfl, rfl, rfl, rfl⟩
  shared _ _ h := h

theorem CoroExt.trans {d d' d'' : CoroData P} (h : CoroExt d d') (h' : CoroExt d' d'') :
    CoroExt d d'' where
  unique := h'.unique.trans h.unique
  void := h'.void.trans h.void
  latency := h'.latency.trans h.latency
  status := h'.status.trans h.status
  returnValue := h'.returnValue.trans h.returnValue
  bound hd := by
    obtain ⟨h1, h2, h3, h4⟩ := h.bound hd
    obtain ⟨g1, g2, g3, g4⟩ := h'.bound (h1 ▸ hd)
    exact ⟨g1.trans h1, g2.trans h2, g3.trans h3, g4.trans h4⟩
  shared hd t ht := h'.shared (h.unique ▸ hd) t (h.shared hd t ht)

theorem Ext.refl (n : TokenId) (s : State P) : Ext n s s where
  now := rfl
  current := rfl
  memory := rfl
  executed := rfl
  nextToken := Nat.le_refl _
  nextHandler := Nat.le_refl _
  nextCoro := Nat.le_refl _
  queue _ h := h
  queueOld _ h := .inl h
  event _ _ h := .inl h
  eventOld _ _ h := .inl h
  token _ _ _ _ := rfl
  tokenFields _ _ _ := ⟨rfl, rfl, rfl⟩
  handler _ _ := rfl
  coro _ _ := CoroExt.refl _
  object _ := rfl
  completionOld _ _ h := .inl h
  outputOld _ _ h := .inl h

theorem Ext.trans {n : TokenId} {s s' s'' : State P} (h : Ext n s s') (h' : Ext n s' s'') :
    Ext n s s'' where
  now := h'.now.trans h.now
  current := h'.current.trans h.current
  memory := h'.memory.trans h.memory
  executed := h'.executed.trans h.executed
  nextToken := Nat.le_trans h.nextToken h'.nextToken
  nextHandler := Nat.le_trans h.nextHandler h'.nextHandler
  nextCoro := Nat.le_trans h.nextCoro h'.nextCoro
  queue t ht := h'.queue t (h.queue t ht)
  queueOld t ht := by
    rcases h'.queueOld t ht with ht | ht | ⟨e, ht⟩
    · exact h.queueOld t ht
    · exact .inr (.inl (Nat.le_trans h.nextToken ht))
    · exact .inr ((h.eventOld e t ht).symm.imp id fun ht => ⟨e, ht⟩)
  event e t ht := by
    rcases h.event e t ht with ht | ht
    · exact h'.event e t ht
    · exact .inr (h'.queue t ht)
  eventOld e t ht := by
    rcases h'.eventOld e t ht with ht | ht
    · exact h.eventOld e t ht
    · exact .inr (Nat.le_trans h.nextToken ht)
  token t hn ht he := by
    have he' : ∀ e, t ∉ s'.events e := fun e hm =>
      (h.eventOld e t hm).elim (he e) (fun hge => absurd ht (Nat.not_lt.mpr hge))
    exact (h'.token t hn (Nat.lt_of_lt_of_le ht h.nextToken) he').trans (h.token t hn ht he)
  tokenFields t hn ht := by
    obtain ⟨h1, h2, h3⟩ := h.tokenFields t hn ht
    obtain ⟨g1, g2, g3⟩ := h'.tokenFields t hn (Nat.lt_of_lt_of_le ht h.nextToken)
    exact ⟨g1.trans h1, g2.trans h2, g3.trans h3⟩
  handler hd hh := (h'.handler hd (Nat.lt_of_lt_of_le hh h.nextHandler)).trans (h.handler hd hh)
  coro c hc := (h.coro c hc).trans (h'.coro c (Nat.lt_of_lt_of_le hc h.nextCoro))
  object o := (h'.object o).trans (h.object o)
  completionOld c t ht := by
    rcases h'.completionOld c t ht with ht | ht
    · exact h.completionOld c t ht
    · exact .inr (Nat.le_trans h.nextToken ht)
  outputOld i t ht := by
    rcases h'.outputOld i t ht with ht | ht
    · exact h.outputOld i t ht
    · exact .inr (Nat.le_trans h.nextToken ht)

/-! ### Edits -/

private theorem updateCoro_ext {s : State P} {c : CoroId} {d : CoroData P}
    (h : CoroExt (s.coros c) d) (c' : CoroId) :
    CoroExt (s.coros c') (Function.update s.coros c d c') := by
  by_cases hc : c' = c
  · subst hc; simpa using h
  · simpa [Function.update_of_ne hc] using CoroExt.refl (s.coros c')

private theorem newToken_of_lt {s : State P} (tkn : Token P.Error) {t : TokenId}
    (ht : t < s.nextToken) : (s.newToken tkn).tokens t = s.tokens t := by
  simp [State.newToken, Function.update_of_ne (Nat.ne_of_lt ht)]

private theorem append_singleton_old {q : List TokenId} {n t : TokenId} {p : Prop}
    (ht : t ∈ q ++ [n]) : t ∈ q ∨ n ≤ t ∨ p := by
  rcases List.mem_append.mp ht with ht | ht
  · exact .inl ht
  · exact .inr (.inl (Nat.le_of_eq (List.mem_singleton.mp ht).symm))

theorem Edit.ext {cd : Option CoroId} {n : TokenId} {nn : Prop} {s s' : State P}
    (h : Edit cd n nn s s') : Ext n s s' := by
  cases h with
  | newCoro f o =>
      refine { Ext.refl n s with
        nextCoro := by simp [State.newCoro], coro := ?_, completionOld := ?_, .. }
      · intro c hc
        simpa [State.newCoro, Function.update_of_ne (Nat.ne_of_lt hc)] using
          CoroExt.refl (s.coros c)
      · intro c t ht
        by_cases hc : c = s.nextCoro
        · subst hc; simp [State.newCoro, CoroData.called] at ht
        · simp only [State.newCoro, Function.update_of_ne hc] at ht
          exact .inl ht
  | startCoro c priority hc =>
      refine { Ext.refl n s with
        nextToken := by simp [State.startCoro, State.log, State.scheduleToken, State.newToken,
          State.setCoro]
        queue := fun t ht => List.mem_append_left _ ht
        queueOld := fun t ht => append_singleton_old ht
        event := fun _ _ ht => .inl ht
        token := fun t _ ht _ => newToken_of_lt _ ht
        tokenFields := ?_, coro := ?_, completionOld := ?_, .. }
      · intro t _ ht
        have h := newToken_of_lt ⟨s.now + (s.coros c).latency,
          resolvePriority (s.coros c).priority priority, some c, none, none⟩ ht
        exact ⟨congrArg Token.handler h, congrArg Token.coroData h, congrArg Token.eptr h⟩
      · intro c' _
        refine updateCoro_ext ?_ c'
        exact { CoroExt.refl (s.coros c) with bound := fun h => absurd hc h }
      · intro c' t ht
        have ht : t ∈ (Function.update s.coros c ((s.coros c).started s.current
            (resolvePriority (s.coros c).priority priority) s.nextToken) c').completionTokens := ht
        by_cases hcc : c' = c
        · subst hcc; exact .inl (by simpa [CoroData.started] using ht)
        · rw [Function.update_of_ne hcc] at ht; exact .inl ht
  | newCompletion p cd' =>
      refine { Ext.refl n s with
        nextToken := by simp [State.newCompletion, State.newToken, State.setCoro]
        token := fun t _ ht _ => newToken_of_lt _ ht, tokenFields := ?_, coro := ?_
        completionOld := ?_, .. }
      · intro t _ ht
        have h := newToken_of_lt ⟨p.retLatency, s.returnPriority p, cd', none, none⟩ ht
        exact ⟨congrArg Token.handler h, congrArg Token.coroData h, congrArg Token.eptr h⟩
      · intro c' _
        refine updateCoro_ext ?_ c'
        refine { CoroExt.refl (s.coros p.coro) with shared := fun hu t ht => ?_ }
        simp [CoroData.completionToken, hu, ht]
      · intro c' t ht
        by_cases hc : c' = p.coro
        · subst hc
          simp only [State.newCompletion, State.setCoro, Function.update_self,
            CoroData.completionToken] at ht
          split at ht
          · exact .inr (Nat.le_of_eq (List.mem_singleton.mp ht).symm)
          · exact (List.mem_append.mp ht).imp id fun ht =>
              Nat.le_of_eq (List.mem_singleton.mp ht).symm
        · exact .inl (by simpa [State.newCompletion, State.newToken, State.setCoro,
            Function.update_of_ne hc] using ht)
  | timeout time priority =>
      refine { Ext.refl n s with
        nextToken := by simp [State.scheduleToken, State.newToken]
        queue := fun t ht => List.mem_append_left _ ht
        queueOld := fun t ht => append_singleton_old ht
        event := fun _ _ ht => .inl ht
        token := fun t _ ht _ => newToken_of_lt _ ht
        tokenFields := ?_, .. }
      · intro t _ ht
        have h := newToken_of_lt ⟨time, priority, cd, none, none⟩ ht
        exact ⟨congrArg Token.handler h, congrArg Token.coroData h, congrArg Token.eptr h⟩
  | newWaiter evt latency priority =>
      refine { Ext.refl n s with
        nextToken := by simp [State.newWaiter, State.newToken]
        event := ?_, eventOld := ?_
        token := fun t _ ht _ => newToken_of_lt _ ht, tokenFields := ?_, .. }
      · intro e t ht
        by_cases he : e = evt
        · subst he; simp [State.newWaiter, ht]
        · simp [State.newWaiter, Function.update_of_ne he, ht]
      · intro e t ht
        by_cases he : e = evt
        · subst he
          simp only [State.newWaiter, Function.update_self, List.mem_append,
            List.mem_singleton] at ht
          exact ht.imp id fun ht => Nat.le_of_eq ht.symm
        · simp only [State.newWaiter, Function.update_of_ne he] at ht
          exact .inl ht
      · intro t _ ht
        have h := newToken_of_lt ⟨latency, priority, cd, none, none⟩ ht
        exact ⟨congrArg Token.handler h, congrArg Token.coroData h, congrArg Token.eptr h⟩
  | newHandler c total =>
      refine { Ext.refl n s with
        nextToken := by simp [State.newHandler, State.newToken]
        nextHandler := by simp [State.newHandler]
        token := fun t _ ht _ => newToken_of_lt _ ht, tokenFields := ?_, handler := ?_
        outputOld := ?_, .. }
      · intro t _ ht
        have h := newToken_of_lt ⟨c.latency, c.priority, cd, none, none⟩ ht
        exact ⟨congrArg Token.handler h, congrArg Token.coroData h, congrArg Token.eptr h⟩
      · intro h hh
        simp [State.newHandler, Function.update_of_ne (Nat.ne_of_lt hh)]
      · intro h t ht
        by_cases hh : h = s.nextHandler
        · subst hh
          simp only [State.newHandler, Function.update_self, Option.some.injEq] at ht
          exact .inr (Nat.le_of_eq ht)
        · exact .inl (by simpa [State.newHandler, Function.update_of_ne hh] using ht)
  | install t h hn =>
      have hne : ∀ u < n, u ≠ t := fun u hu => Nat.ne_of_lt (Nat.lt_of_lt_of_le hu hn)
      refine { Ext.refl n s with token := ?_, tokenFields := ?_, .. }
      · intro u hu _ _
        simp [State.install, State.setToken, Function.update_of_ne (hne u hu)]
      · intro u hu _
        simp [State.install, State.setToken, Function.update_of_ne (hne u hu)]
  | wake evt =>
      refine { Ext.refl n s with
        now := by simp [State.wake], current := by simp [State.wake]
        memory := by simp [State.wake], executed := by simp [State.wake]
        nextToken := by simp [State.wake], nextHandler := by simp [State.wake]
        nextCoro := by simp [State.wake]
        queue := fun t ht => by simp [State.wake, ht]
        queueOld := ?_, event := ?_, eventOld := ?_, token := ?_
        tokenFields := fun t _ _ => s.releaseAll_fields _ t
        handler := by simp [State.wake], object := by simp [State.wake]
        coro := fun c _ => by simpa [State.wake] using CoroExt.refl (s.coros c)
        completionOld := fun c t ht => .inl (by simpa [State.wake] using ht)
        outputOld := fun i t ht => .inl (by simpa [State.wake] using ht) }
      · intro t ht
        simp only [State.wake, State.releaseAll_queue, List.mem_append] at ht
        exact ht.imp id fun ht => .inr ⟨evt, ht⟩
      · intro e t ht
        by_cases he : e = evt
        · subst he; exact .inr (by simp [State.wake, ht])
        · exact .inl (by simp [State.wake, Function.update_of_ne he, ht])
      · intro e t ht
        by_cases he : e = evt
        · subst he; simp [State.wake] at ht
        · simp only [State.wake, Function.update_of_ne he] at ht
          exact .inl ht
      · exact fun t _ _ he => (s.releaseAll_of_notMem (he evt)).1
  | setObject h tkn =>
      refine { Ext.refl n s with object := ?_, .. }
      intro o
      by_cases ho : o = h
      · subst ho; simp [State.setObject]
      · simp [State.setObject, Function.update_of_ne ho]

theorem Edits.ext {cd : Option CoroId} {n : TokenId} {nn : Prop} {s s' : State P}
    (h : Edits cd n nn s s') : Ext n s s' := by
  induction h with
  | refl => exact Ext.refl n _
  | tail _ he ih => exact ih.trans he.ext

end Cxxdes
