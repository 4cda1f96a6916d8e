-- SUMMARY: The tokens and handlers that awaitSuspend creates, and the three phases of coAwait.
import Cxxdes.Await.Protocol

/-!
# Suspension

`Created cd s s' free outer` describes the tokens and handlers between the
counters of `s` and those of `s'`: all tokens name `cd`, all but `free` report to
a handler, and that handler is a new one or `outer`.
-/

namespace Cxxdes

variable {P : Program}

structure Created (cd : Option CoroId) (s s' : State P) (free : Option TokenId)
    (outer : Option HandlerId) : Prop where
  coroData : ∀ t, s.nextToken ≤ t → t < s'.nextToken → (s'.tokens t).coroData = cd
  eptr : ∀ t, s.nextToken ≤ t → t < s'.nextToken → (s'.tokens t).eptr = none
  handler : ∀ t, s.nextToken ≤ t → t < s'.nextToken →
    match (s'.tokens t).handler with
    | none => free = some t
    | some h => free ≠ some t ∧ (outer = some h ∨ s.nextHandler ≤ h ∧ h < s'.nextHandler)
  output : ∀ h, s.nextHandler ≤ h → h < s'.nextHandler →
    ∃ out, (s'.handlers h).completionTkn = some out ∧ s.nextToken ≤ out ∧ out < s'.nextToken

namespace Created

variable {cd : Option CoroId} {s s' s'' : State P}

theorem refl (cd : Option CoroId) (s : State P) (outer : Option HandlerId) :
    Created cd s s none outer where
  coroData _ hle hlt := absurd hle (Nat.not_le.mpr hlt)
  eptr _ hle hlt := absurd hle (Nat.not_le.mpr hlt)
  handler _ hle hlt := absurd hle (Nat.not_le.mpr hlt)
  output _ hle hlt := absurd hle (Nat.not_le.mpr hlt)

/-- A single new token without a handler. -/
theorem single {time priority : Int}
    (htok : s'.tokens s.nextToken = ⟨time, priority, cd, none, none⟩)
    (hnt : s'.nextToken = s.nextToken + 1) (hnh : s'.nextHandler = s.nextHandler) :
    Created cd s s' (some s.nextToken) none := by
  have heq : ∀ t, s.nextToken ≤ t → t < s'.nextToken → t = s.nextToken := by
    intro t hle hlt
    rw [hnt] at hlt
    exact Nat.le_antisymm (Nat.le_of_lt_succ hlt) hle
  refine ⟨?_, ?_, ?_, ?_⟩
  · intro t hle hlt
    rw [heq t hle hlt, htok]
  · intro t hle hlt
    rw [heq t hle hlt, htok]
  · intro t hle hlt
    rw [heq t hle hlt, htok]
  · intro h hle hlt
    exact absurd hle (Nat.not_le.mpr (hnh ▸ hlt))

theorem free_handler {t : TokenId} {outer : Option HandlerId} (h : Created cd s s' (some t) outer)
    (hle : s.nextToken ≤ t) (hlt : t < s'.nextToken) : (s'.tokens t).handler = none := by
  have hh := h.handler t hle hlt
  split at hh
  · assumption
  · exact absurd rfl hh.1

theorem trans {outer : Option HandlerId} (h : Created cd s s' none outer)
    (hmono : Ext s.nextToken s s') (he : Ext s'.nextToken s' s'')
    (h' : Created cd s' s'' none outer) : Created cd s s'' none outer := by
  refine ⟨?_, ?_, ?_, ?_⟩
  · intro t hle hlt
    rcases Nat.lt_or_ge t s'.nextToken with ht | ht
    · rw [(he.tokenFields t ht ht).2.1]; exact h.coroData t hle ht
    · exact h'.coroData t ht hlt
  · intro t hle hlt
    rcases Nat.lt_or_ge t s'.nextToken with ht | ht
    · rw [(he.tokenFields t ht ht).2.2]; exact h.eptr t hle ht
    · exact h'.eptr t ht hlt
  · intro t hle hlt
    rcases Nat.lt_or_ge t s'.nextToken with ht | ht
    · have hh := h.handler t hle ht
      rw [(he.tokenFields t ht ht).1]
      split at hh
      · exact hh
      · exact ⟨hh.1, hh.2.imp id fun ⟨h1, h2⟩ => ⟨h1, Nat.lt_of_lt_of_le h2 he.nextHandler⟩⟩
    · have hh := h'.handler t ht hlt
      split at hh
      · exact hh
      · exact ⟨hh.1, hh.2.imp id fun ⟨h1, h2⟩ => ⟨Nat.le_trans hmono.nextHandler h1, h2⟩⟩
  · intro hd hle hlt
    rcases Nat.lt_or_ge hd s'.nextHandler with hh | hh
    · obtain ⟨out, h1, h2, h3⟩ := h.output hd hle hh
      exact ⟨out, by rw [he.handler hd hh]; exact h1, h2, Nat.lt_of_lt_of_le h3 he.nextToken⟩
    · obtain ⟨out, h1, h2, h3⟩ := h'.output hd hh hlt
      exact ⟨out, h1, Nat.le_trans hmono.nextToken h2, h3⟩

/-- The composition takes the token of a child over. -/
theorem install {t : TokenId} {hd : HandlerId} (h : Created cd s s' (some t) none)
    (ht : s.nextToken ≤ t) : Created cd s (s'.install t hd) none (some hd) := by
  have hne : ∀ u, u ≠ t → (s'.install t hd).tokens u = s'.tokens u := by
    intro u hu
    simp [State.install, State.setToken, Function.update_of_ne hu]
  refine ⟨?_, ?_, ?_, h.output⟩
  · intro u hle hlt
    have hu := h.coroData u hle hlt
    by_cases hut : u = t
    · subst hut; simpa [State.install, State.setToken] using hu
    · rw [hne u hut]; exact hu
  · intro u hle hlt
    have hu := h.eptr u hle hlt
    by_cases hut : u = t
    · subst hut; simpa [State.install, State.setToken] using hu
    · rw [hne u hut]; exact hu
  · intro u hle hlt
    by_cases hut : u = t
    · subst hut; simp [State.install, State.setToken]
    · have hu := h.handler u hle hlt
      rw [hne u hut]
      split at hu
      · exact absurd (Option.some.inj hu).symm hut
      · exact ⟨by simp, .inr (hu.2.resolve_left (by simp))⟩

/-- A composition: the output token is the free one. -/
theorem comp {c : Comp} {total : Nat} (he : Ext (s.nextToken + 1) (s.newHandler c total cd) s')
    (h : Created cd (s.newHandler c total cd) s' none (some s.nextHandler)) :
    Created cd s s' (some s.nextToken) none := by
  have hlt' : s.nextToken < (s.newHandler c total cd).nextToken := Nat.lt_succ_self _
  have hout := he.tokenFields s.nextToken (Nat.lt_succ_self _) hlt'
  have htok : (s.newHandler c total cd).tokens s.nextToken =
      ⟨c.latency, c.priority, cd, none, none⟩ := by
    simp [State.newHandler, State.newToken]
  rw [htok] at hout
  have hcases : ∀ t, s.nextToken ≤ t → t = s.nextToken ∨ s.nextToken + 1 ≤ t := fun t hle =>
    (Nat.eq_or_lt_of_le hle).imp Eq.symm id
  refine ⟨?_, ?_, ?_, ?_⟩
  · intro t hle hlt
    rcases hcases t hle with rfl | ht
    · exact hout.2.1
    · exact h.coroData t ht hlt
  · intro t hle hlt
    rcases hcases t hle with rfl | ht
    · exact hout.2.2
    · exact h.eptr t ht hlt
  · intro t hle hlt
    rcases hcases t hle with rfl | ht
    · rw [hout.1]
    · have hh := h.handler t ht hlt
      split at hh
      · cases hh
      · refine ⟨fun heq => absurd (Option.some.inj heq) (Nat.ne_of_lt ht), .inr ?_⟩
        rcases hh.2 with heq | ⟨h1, h2⟩
        · cases heq; exact ⟨Nat.le_refl _, he.nextHandler⟩
        · exact ⟨Nat.le_of_lt h1, h2⟩
  · intro hd hle hlt
    rcases Nat.eq_or_lt_of_le hle with rfl | hh
    · refine ⟨s.nextToken, ?_, Nat.le_refl _, he.nextToken⟩
      rw [he.handler s.nextHandler (Nat.lt_succ_self _)]
      simp [State.newHandler]
    · obtain ⟨out, h1, h2, h3⟩ := h.output hd hh hlt
      exact ⟨out, h1, Nat.le_of_lt h2, h3⟩

end Created

/-! ### await_suspend -/

section
variable (cd : Option CoroId) {nn : Prop}

private theorem suspendHandle_spec (tkn : Option TokenId) {s : State P}
    {p : Handle} (ha : s.BoundHere p.coro ∧ (s.coros p.coro).complete = false)
    (hn : nn → 0 ≤ p.retLatency) :
    Edits cd s.nextToken nn s (s.suspendHandle p tkn cd).2 ∧
    ∀ t s', s.suspendHandle p tkn cd = (.ok t, s') →
      t = s.nextToken ∧ s' = s.newCompletion p cd ∧ s.nextToken < s'.nextToken ∧
        Created cd s s' (some t) none := by
  unfold State.suspendHandle
  cases tkn with
  | some t => exact ⟨.refl, fun _ _ h => by cases h⟩
  | none =>
      refine ⟨.single (.newCompletion p cd (.inr rfl) ha.1.2 ha.2 hn), fun t s' h => ?_⟩
      cases h
      have htok : (s.newCompletion p cd).tokens s.nextToken =
          ⟨p.retLatency, s.returnPriority p, cd, none, none⟩ := by
        simp [State.newCompletion, State.setCoro, State.newToken]
      exact ⟨rfl, rfl, Nat.lt_succ_self _, .single htok rfl rfl⟩

mutual
theorem awaitSuspend_spec (a : Awaitable P.User) (s : State P) (hs : s.Tidy nn)
    (ha : Suspendable s a) (hn : nn → a.NonNeg) :
    Edits cd s.nextToken nn s (awaitSuspend cd a s).2 ∧
    ∀ a' s', awaitSuspend cd a s = (.ok a', s') →
      awaitToken s' a' = some s.nextToken ∧ s.nextToken < s'.nextToken ∧
      Created cd s s' (some s.nextToken) none := by
  cases a with
  | timeout relative time priority tkn =>
      refine ⟨.single (.timeout _ priority ?_), fun a' s' h => ?_⟩
      · intro hnn
        cases relative with
        | true => exact Int.le_add_of_nonneg_right (hn hnn rfl)
        | false => exact Int.le_of_lt (ha.resolve_left (by simp))
      · cases h
        have htok : ∀ time, ((s.newToken ⟨time, priority, cd, none, none⟩).scheduleToken
            s.nextToken).tokens s.nextToken = ⟨time, priority, cd, none, none⟩ := by
          simp [State.scheduleToken, State.newToken]
        exact ⟨rfl, Nat.lt_succ_self _, .single (htok _) rfl rfl⟩
  | wait evt latency priority tkn =>
      refine ⟨.single (.newWaiter evt latency priority hn), fun a' s' h => ?_⟩
      cases h
      have htok : (s.newWaiter evt ⟨latency, priority, cd, none, none⟩).tokens s.nextToken =
          ⟨latency, priority, cd, none, none⟩ := by
        simp [State.newWaiter, State.newToken]
      exact ⟨rfl, Nat.lt_succ_self _, .single htok rfl rfl⟩
  | coroutine p tkn =>
      obtain ⟨he, hc⟩ := suspendHandle_spec cd tkn ha hn
      simp only [awaitSuspend]
      rcases hr : s.suspendHandle p tkn cd with ⟨_ | t, s1⟩ <;> rw [hr] at he hc
      · exact ⟨he, fun _ _ h => by cases h⟩
      · obtain ⟨rfl, -, hlt, hc⟩ := hc t s1 rfl
        exact ⟨he, fun _ _ h => by cases h; exact ⟨rfl, hlt, hc⟩⟩
  | ref o =>
      obtain ⟨he, hc⟩ := suspendHandle_spec cd (s.objects o).2 ha fun hnn => hs.object hnn o
      simp only [awaitSuspend]
      rcases hr : s.suspendHandle (s.objects o).1 (s.objects o).2 cd with ⟨_ | t, s1⟩ <;>
        rw [hr] at he hc
      · exact ⟨he, fun _ _ h => by cases h⟩
      · obtain ⟨rfl, rfl, hlt, hc⟩ := hc t s1 rfl
        refine ⟨.tail he (.setObject o _ fun t ht => ?_), fun _ _ h => ?_⟩
        · cases ht
          have henv := ha.1.2
          simp only [State.newCompletion, State.setCoro, State.newToken, CoroData.completionToken,
            Function.update_self]
          exact ⟨by split <;> simp, henv, ha.2, trivial⟩
        cases h
        refine ⟨?_, hlt, ⟨hc.coroData, hc.eptr, hc.handler, hc.output⟩⟩
        simp [awaitToken, State.setObject]
  | comp c as =>
      have hnew : Edit cd s.nextToken nn s (s.newHandler c as.length cd) :=
        .newHandler c as.length fun hnn => (hn hnn).1
      have hext := hnew.ext
      obtain ⟨he, hc⟩ := awaitSuspendAll_spec s.nextHandler s.nextToken as c.ready
        (s.newHandler c as.length cd) (Edits.tidy (.single hnew) hs)
        (hext.suspendableAll (show SuspendableAll s c.ready as from ha)) (fun hnn => (hn hnn).2)
        (Nat.lt_succ_self _)
        (by simp [State.newHandler]) (Nat.lt_succ_self _)
        (by simp [State.newHandler, State.newToken])
      simp only [awaitSuspend]
      rcases hr : awaitSuspendAll cd s.nextHandler c.ready as (s.newHandler c as.length cd)
        with ⟨_ | as', s1⟩ <;> rw [hr] at he hc
      · exact ⟨.head hnew (he.mono (Nat.le_succ _)), fun _ _ h => by cases h⟩
      · refine ⟨.head hnew (he.mono (Nat.le_succ _)), fun _ _ h => ?_⟩
        cases h
        exact ⟨rfl, he.ext.nextToken, .comp he.ext (hc as' s1 rfl)⟩
  | _ => cases ha

theorem awaitSuspendAll_spec (hd : HandlerId) (out : TokenId) (as : List (Awaitable P.User))
    (ready : List Bool) (s : State P) (hs : s.Tidy nn) (ha : SuspendableAll s ready as)
    (hn : nn → Awaitable.NonNegAll as) (hh : hd < s.nextHandler)
    (ho : (s.handlers hd).completionTkn = some out) (hlt : out < s.nextToken)
    (hc : (s.tokens out).coroData = cd) :
    Edits cd s.nextToken nn s (awaitSuspendAll cd hd ready as s).2 ∧
    ∀ as' s', awaitSuspendAll cd hd ready as s = (.ok as', s') →
      Created cd s s' none (some hd) := by
  cases as with
  | nil => exact ⟨.refl, fun _ _ h => by cases h; exact .refl cd s _⟩
  | cons a as =>
      simp only [awaitSuspendAll]
      split
      · obtain ⟨he, hc⟩ := awaitSuspendAll_spec hd out as ready.tail s hs ha.2
          (fun hnn => (hn hnn).2) hh ho hlt hc
        rcases hr : awaitSuspendAll cd hd ready.tail as s with ⟨_ | as', s1⟩ <;> rw [hr] at he hc
        · exact ⟨he, fun _ _ h => by cases h⟩
        · exact ⟨he, fun _ _ h => by cases h; exact hc as' s1 rfl⟩
      · next hready =>
          obtain ⟨he, hc1⟩ := awaitSuspend_spec a s hs (ha.1 (by simpa using hready))
            fun hnn => (hn hnn).1
          rcases hr : awaitSuspend cd a s with ⟨_ | a', s1⟩ <;> rw [hr] at he hc1
          · exact ⟨he, fun _ _ h => by cases h⟩
          · obtain ⟨htkn, hlt1, hc1⟩ := hc1 a' s1 rfl
            have he1 := he.ext
            have hinst : Edit cd s.nextToken nn s1 (s1.install s.nextToken hd) := by
              refine .install _ hd (Nat.le_refl _) hlt1 (Nat.lt_of_lt_of_le hh he1.nextHandler)
                (hc1.free_handler (Nat.le_refl _) hlt1) (hc1.eptr _ (Nat.le_refl _) hlt1) ?_
              intro out' hout'
              rw [he1.handler hd hh, ho] at hout'
              cases hout'
              rw [(he1.tokenFields out hlt hlt).2.1, hc, hc1.coroData _ (Nat.le_refl _) hlt1]
            have he2 := he.tail hinst
            have hext := Edits.ext he2
            obtain ⟨he3, hc3⟩ := awaitSuspendAll_spec hd out as ready.tail
              (s1.install s.nextToken hd) (Edits.tidy he2 hs) (hext.suspendableAll ha.2)
              (fun hnn => (hn hnn).2) (Nat.lt_of_lt_of_le hh hext.nextHandler)
              ((congrArg Handler.completionTkn (hext.handler hd hh)).trans ho)
              (Nat.lt_of_lt_of_le hlt hext.nextToken)
              ((hext.tokenFields out hlt hlt).2.1.trans hc)
            have hmono : s.nextToken ≤ (s1.install s.nextToken hd).nextToken := hext.nextToken
            simp only [htkn, installOn]
            rcases hr' : awaitSuspendAll cd hd ready.tail as (s1.install s.nextToken hd)
              with ⟨_ | as', s2⟩ <;> rw [hr'] at he3 hc3
            · exact ⟨he2.trans (he3.mono hmono), fun _ _ h => by cases h⟩
            · refine ⟨he2.trans (he3.mono hmono), fun _ _ h => ?_⟩
              cases h
              exact (hc1.install (Nat.le_refl _)).trans hext he3.ext (hc3 as' s2 rfl)
end

end

/-! ### co_await -/

/-- `awaitToken` of an awaitable that is held by value. -/
def Awaitable.token {U : Type} : Awaitable U → Option TokenId
  | .timeout _ _ _ tkn => tkn
  | .wait _ _ _ tkn => tkn
  | .coroutine _ tkn => tkn
  | .comp c _ => c.tkn
  | _ => none

def Awaitable.isRef {U : Type} : Awaitable U → Bool
  | .ref _ => true
  | _ => false

theorem awaitToken_eq (s : State P) {a : Awaitable P.User} (ha : a.isRef = false) :
    awaitToken s a = a.token := by
  cases a with
  | ref h => cases ha
  | _ => rfl

theorem wrap_isRef (s : State P) (a : Awaitable P.User) : (a.wrap s).isRef = false := by
  cases a <;> rfl

theorem awaitBind_isRef {priority : Int} {a a' : Awaitable P.User} {s s' : State P}
    (ha : a.isRef = false) (hok : awaitBind priority a s = (.ok a', s')) : a'.isRef = false := by
  cases a <;> simp only [awaitBind] at hok
  case ref => cases ha
  all_goals first
    | (cases hok; rfl)
    | (split at hok <;> cases hok; rfl)

theorem awaitReady_isRef {a : Awaitable P.User} (s : State P) (ha : a.isRef = false) :
    (awaitReady a s).2.1.isRef = false := by
  cases a with
  | ref h => cases ha
  | _ => rfl

theorem awaitSuspend_isRef {cd : Option CoroId} {a a' : Awaitable P.User} {s s' : State P}
    (ha : a.isRef = false) (hok : awaitSuspend cd a s = (.ok a', s')) : a'.isRef = false := by
  cases a <;> simp only [awaitSuspend] at hok
  case ref => cases ha
  all_goals first
    | (cases hok; rfl)
    | (split at hok <;> cases hok; rfl)

mutual
theorem copy_nonNeg {a : Awaitable P.User} (ha : a.NonNeg) : a.copy.NonNeg := by
  cases a with
  | comp c as => exact ⟨ha.1, copyAll_nonNeg ha.2⟩
  | _ => exact ha

theorem copyAll_nonNeg {as : List (Awaitable P.User)} (ha : Awaitable.NonNegAll as) :
    Awaitable.NonNegAll (Awaitable.copyAll as) := by
  cases as with
  | nil => trivial
  | cons a as => exact ⟨copy_nonNeg ha.1, copyAll_nonNeg ha.2⟩
end

theorem wrap_nonNeg {nn : Prop} {s : State P} (hs : s.Tidy nn) {a : Awaitable P.User}
    (ha : nn → a.NonNeg) (hnn : nn) : (a.wrap s).NonNeg := by
  cases a with
  | ref h => exact hs.object hnn h
  | comp c as => exact copy_nonNeg (ha hnn)
  | _ => exact ha hnn

/-- `await_suspend` of the awaitable throws, when `c` awaits `a`. -/
def State.suspendThrows (s : State P) (c : CoroId) (a : Awaitable P.User) : Bool :=
  match awaitBind (s.coros c).priority (a.wrap s) s with
  | (.error _, _) => false
  | (.ok a, s) =>
    match awaitReady a s with
    | (true, _, _) => false
    | (false, a, s) =>
      match awaitSuspend s.current a s with
      | (.error _, _) => true
      | (.ok _, _) => false

/-- The ways a `co_await` ends: with a result at once, with an exception from
`await_suspend`, or with the body suspended. `sm` is the state at the call of
`await_suspend`. -/
theorem coAwait_cases {nn : Prop} {s : State P} (hs : s.Tidy nn) (c : CoroId)
    {a : Awaitable P.User} (k : Result P.Value P.Error → P.Frame) (ha : nn → a.NonNeg) :
    (∃ s1 target r, Edits none s.nextToken nn s s1 ∧
      s.coAwait c a k = s1.deliver c target k r) ∨
    (∃ sm s1 target e, Edits none s.nextToken nn s sm ∧
      Edits s.current sm.nextToken nn sm s1 ∧ s.suspendThrows c a = true ∧
      s.coAwait c a k = s1.deliver c target k (.error e)) ∨
    (∃ sm s1 a', Edits none s.nextToken nn s sm ∧ Edits s.current sm.nextToken nn sm s1 ∧
      a'.isRef = false ∧ a'.token = some sm.nextToken ∧ sm.nextToken < s1.nextToken ∧
      Created s.current sm s1 (some sm.nextToken) none ∧
      s.coAwait c a k = s1.suspend c a' k) := by
  have hw : nn → (a.wrap s).NonNeg := wrap_nonNeg hs ha
  have he1 : Edits none s.nextToken nn s _ :=
    awaitBind_edits (s.coros c).priority (a.wrap s) s hs hw
  unfold State.coAwait State.suspendThrows
  rcases hr1 : awaitBind (s.coros c).priority (a.wrap s) s with ⟨e | a1, s1⟩ <;> rw [hr1] at he1
  · exact .inl ⟨s1, (a.wrap s).target, .error e, he1, by simp only [hr1]⟩
  obtain ⟨hb1, hn1⟩ := awaitBind_bound hs hw hr1
  have hf1 := awaitBind_isRef (wrap_isRef s a) hr1
  have he2 : Edits none s.nextToken nn s1 _ := awaitReady_edits a1 s1
  have hn2 := fun hnn => awaitReady_nonNeg s1 (hn1 hnn)
  have hf2 := awaitReady_isRef s1 hf1
  have hs2 := awaitReady_suspendable hb1
  simp only [hr1]
  rcases hr2 : awaitReady a1 s1 with ⟨_ | _, a2, s2⟩ <;> rw [hr2] at he2 hn2 hf2 hs2
  · have he12 := he1.trans he2
    obtain ⟨he3, hc3⟩ := awaitSuspend_spec s.current a2 s2 (Edits.tidy he12 hs) (hs2 rfl) hn2
    have hcur : s2.current = s.current := (Edits.ext he12).current
    simp only [hcur]
    rcases hr3 : awaitSuspend s.current a2 s2 with ⟨e | a3, s3⟩ <;> rw [hr3] at he3 hc3
    · exact .inr (.inl ⟨s2, s3, _, e, he12, he3, rfl, rfl⟩)
    · obtain ⟨htkn, hlt, hcr⟩ := hc3 a3 s3 rfl
      have hf3 := awaitSuspend_isRef hf2 hr3
      rw [awaitToken_eq s3 hf3] at htkn
      exact .inr (.inr ⟨s2, s3, a3, he12, he3, hf3, htkn, hlt, hcr, rfl⟩)
  · exact .inl ⟨_, _, _, (he1.trans he2).trans (awaitResume_edits a2 s2), rfl⟩

end Cxxdes
