-- SUMMARY: Which tokens report to which handler after await_suspend, also when it throws in the middle of a composition.
import Cxxdes.Await.Suspend

/-!
# Handlers

`await_suspend` of a composition hands the same handler to the tokens of all its
children that were not ready. If it returns, as many tokens report to the handler as
the handler waits for. If a child throws, the handlers on the way to that child are
left with the tokens of the children that were suspended before.
-/

namespace Cxxdes

variable {P : Program} {s s' s'' : State P} {h : HandlerId} {ts : List TokenId}

theorem State.install_handler (s : State P) (t : TokenId) (hd : HandlerId) :
    ((s.install t hd).tokens t).handler = some hd := by
  simp [State.install, State.setToken]

theorem State.install_tokens_ne (s : State P) {t u : TokenId} (hd : HandlerId) (hu : u ≠ t) :
    (s.install t hd).tokens u = s.tokens u :=
  Function.update_of_ne hu ..

/-- Of the tokens that an await creates, its own is the only one without a handler. -/
theorem Created.handler_none {cd : Option CoroId} {t u : TokenId} {outer : Option HandlerId}
    (hcr : Created cd s s' (some t) outer) (ht : s.nextToken ≤ t) (hle : s.nextToken ≤ u)
    (hlt : u < s'.nextToken) : (s'.tokens u).handler = none ↔ u = t := by
  constructor
  · intro hfree
    have hh := hcr.handler u hle hlt
    rw [hfree] at hh
    exact (Option.some.inj hh).symm
  · rintro rfl
    exact hcr.free_handler ht hlt

/-- Without new tokens to install a handler on, no token is given one. -/
theorem Edit.handler_old {cd : Option CoroId} {n : TokenId} {nn : Prop}
    (he : Edit cd n nn s s') (hn : s'.nextToken ≤ n) {t : TokenId} (ht : t < s'.nextToken)
    (hh : (s'.tokens t).handler = some h) : t < s.nextToken ∧ (s.tokens t).handler = some h := by
  have hnew : ∀ {tkn : Token P.Error}, tkn.handler = none → t < s.nextToken + 1 →
      (Function.update s.tokens s.nextToken tkn t).handler = some h →
      t < s.nextToken ∧ (s.tokens t).handler = some h := by
    intro tkn hfree ht hh
    by_cases hne : t = s.nextToken
    · rw [hne, Function.update_self, hfree] at hh
      cases hh
    · rw [Function.update_of_ne hne] at hh
      exact ⟨Nat.lt_of_le_of_ne (Nat.le_of_lt_succ ht) hne, hh⟩
  cases he with
  | newCoro | setObject => exact ⟨ht, hh⟩
  | startCoro | newCompletion | timeout | newWaiter | newHandler => exact hnew rfl ht hh
  | install u hd hnu hu => exact absurd (Nat.lt_of_le_of_lt hnu hu) (Nat.not_lt.mpr hn)
  | wake evt =>
      rw [State.wake] at ht hh
      rw [(s.releaseAll_fields (s.events evt) t).1] at hh
      exact ⟨by simpa using ht, hh⟩

theorem Edits.handler_old {cd : Option CoroId} {n : TokenId} {nn : Prop}
    (he : Edits cd n nn s s') (hn : s'.nextToken ≤ n) {t : TokenId} (ht : t < s'.nextToken)
    (hh : (s'.tokens t).handler = some h) : t < s.nextToken ∧ (s.tokens t).handler = some h := by
  induction he with
  | refl => exact ⟨ht, hh⟩
  | tail _ he ih =>
      obtain ⟨ht1, hh1⟩ := he.handler_old hn ht hh
      exact ih (Nat.le_trans he.ext.nextToken hn) ht1 hh1

/-! ### Children -/

/-- `ts` are the tokens that report to handler `h`. -/
structure Kids (s : State P) (h : HandlerId) (ts : List TokenId) : Prop where
  nodup : ts.Nodup
  mem : ∀ t, t ∈ ts ↔ t < s.nextToken ∧ (s.tokens t).handler = some h

/-- Tokens report to handlers that exist. -/
def State.Bounded (s : State P) : Prop :=
  ∀ t h, t < s.nextToken → (s.tokens t).handler = some h → h < s.nextHandler

/-- The tokens that are new in `s'` report to handlers that are new, or to `outer`. -/
def NewReports (outer : Option HandlerId) (s s' : State P) : Prop :=
  ∀ t h, s.nextToken ≤ t → t < s'.nextToken → (s'.tokens t).handler = some h →
    outer = some h ∨ (s.nextHandler ≤ h ∧ h < s'.nextHandler)

namespace NewReports

variable {outer : Option HandlerId}

theorem refl (outer : Option HandlerId) (s : State P) : NewReports outer s s :=
  fun _ _ hle hlt => absurd hlt (Nat.not_lt.mpr hle)

theorem some (hd : HandlerId) (hr : NewReports none s s') : NewReports (some hd) s s' :=
  fun t h hle hlt hh => (hr t h hle hlt hh).imp (fun hc => by cases hc) id

theorem trans (hr : NewReports outer s s') (hr' : NewReports outer s' s'')
    (hn : s.nextHandler ≤ s'.nextHandler) (hn' : s'.nextHandler ≤ s''.nextHandler)
    (hf : ∀ t < s'.nextToken, (s''.tokens t).handler = (s'.tokens t).handler) :
    NewReports outer s s'' := by
  intro t h hle hlt hh
  cases Nat.lt_or_ge t s'.nextToken with
  | inl hold =>
      rw [hf t hold] at hh
      exact (hr t h hle hold hh).imp id (And.imp id (Nat.lt_of_lt_of_le · hn'))
  | inr hnew => exact (hr' t h hnew hlt hh).imp id (And.imp (Nat.le_trans hn ·) id)

/-- The token of a child is handed the handler. -/
theorem install {hd : HandlerId} (hr : NewReports none s s') (t : TokenId) :
    NewReports (Option.some hd) s (s'.install t hd) := by
  intro u h hle hlt hh
  by_cases hu : u = t
  · subst hu
    rw [State.install_handler] at hh
    exact .inl hh
  · rw [State.install_tokens_ne s' hd hu] at hh
    exact hr.some hd u h hle hlt hh

/-- A token without a handler that is new. -/
theorem single (hnt : s'.nextToken = s.nextToken + 1)
    (hfree : (s'.tokens s.nextToken).handler = none) : NewReports outer s s' := by
  intro t h hle hlt hh
  rw [hnt] at hlt
  obtain rfl : t = s.nextToken := Nat.le_antisymm (Nat.le_of_lt_succ hlt) hle
  rw [hfree] at hh
  cases hh

theorem bounded {hd : HandlerId} (hr : NewReports (Option.some hd) s s') (hx : Ext s.nextToken s s')
    (hb : s.Bounded) (hh : hd < s.nextHandler) : s'.Bounded := by
  intro t h hlt hth
  cases Nat.lt_or_ge t s.nextToken with
  | inl hold =>
      rw [(hx.tokenFields t hold hold).1] at hth
      exact Nat.lt_of_lt_of_le (hb t h hold hth) hx.nextHandler
  | inr hnew =>
      cases hr t h hnew hlt hth with
      | inl heq => cases heq; exact Nat.lt_of_lt_of_le hh hx.nextHandler
      | inr hlt => exact hlt.2

end NewReports

namespace Kids

theorem keep (hk : Kids s h ts) (hle : s.nextToken ≤ s'.nextToken)
    (hold : ∀ t < s.nextToken, (s'.tokens t).handler = some h ↔ (s.tokens t).handler = some h)
    (hnew : ∀ t, s.nextToken ≤ t → t < s'.nextToken → (s'.tokens t).handler ≠ some h) :
    Kids s' h ts where
  nodup := hk.nodup
  mem t := by
    rw [hk.mem]
    constructor
    · rintro ⟨hlt, hh⟩
      exact ⟨Nat.lt_of_lt_of_le hlt hle, (hold t hlt).mpr hh⟩
    · rintro ⟨hlt, hh⟩
      cases Nat.lt_or_ge t s.nextToken with
      | inl hlt' => exact ⟨hlt', (hold t hlt').mp hh⟩
      | inr hge => exact absurd hh (hnew t hge hlt)

/-- Awaiting something else adds no children to a handler. -/
theorem ext {outer : Option HandlerId} (hk : Kids s h ts) (hx : Ext s.nextToken s s')
    (hr : NewReports outer s s') (hh : h < s.nextHandler) (hne : outer ≠ some h) :
    Kids s' h ts := by
  refine hk.keep hx.nextToken (fun t hlt => ?_) fun t hge hlt hth => ?_
  · rw [(hx.tokenFields t hlt hlt).1]
  · cases hr t h hge hlt hth with
    | inl heq => exact hne heq
    | inr hle => exact absurd hh (Nat.not_lt.mpr hle.1)

theorem install (hk : Kids s h ts) {t : TokenId} (ht : t < s.nextToken)
    (hfree : (s.tokens t).handler = none) : Kids (s.install t h) h (ts ++ [t]) where
  nodup := by
    refine List.nodup_append.mpr ⟨hk.nodup, by simp, ?_⟩
    rintro u hu v hv rfl
    rw [List.mem_singleton.mp hv] at hu
    rw [((hk.mem t).mp hu).2] at hfree
    cases hfree
  mem u := by
    by_cases hu : u = t
    · subst hu
      simp [State.install_handler, show u < (s.install u h).nextToken from ht]
    · rw [State.install_tokens_ne s h hu, List.mem_append, hk.mem, List.mem_singleton]
      exact or_iff_left hu

theorem install_ne (hk : Kids s h ts) {t : TokenId} {hd : HandlerId} (hne : hd ≠ h)
    (hfree : (s.tokens t).handler = none) : Kids (s.install t hd) h ts := by
  refine hk.keep (Nat.le_refl _) (fun u _ => ?_) fun u hle hlt => absurd hlt (Nat.not_lt.mpr hle)
  by_cases hu : u = t
  · subst hu
    simp [State.install_handler, hfree, hne]
  · rw [State.install_tokens_ne s hd hu]

end Kids

/-- The tokens that report to a handler are those from before a new handler is created. -/
theorem newHandler_reports {cd : Option CoroId} {c : Comp} {total : Nat} {t : TokenId}
    (ht : t < (s.newHandler c total cd).nextToken)
    (hh : ((s.newHandler c total cd).tokens t).handler = some h) :
    t < s.nextToken ∧ (s.tokens t).handler = some h := by
  have hne : t ≠ s.nextToken := by
    rintro rfl
    simp [State.newHandler, State.newToken] at hh
  have hlt : t < s.nextToken := Nat.lt_of_le_of_ne (Nat.le_of_lt_succ ht) hne
  exact ⟨hlt, by simpa [State.newHandler, State.newToken, Function.update_of_ne hne] using hh⟩

theorem State.Bounded.newHandler (hb : s.Bounded) (c : Comp) (total : Nat) (cd : Option CoroId) :
    (s.newHandler c total cd).Bounded := by
  intro t h ht hh
  obtain ⟨hlt, hold⟩ := newHandler_reports ht hh
  exact Nat.lt_succ_of_lt (hb t h hlt hold)

/-- Nothing reports to a new handler yet. -/
theorem Kids.newHandler (hb : s.Bounded) (c : Comp) (total : Nat) (cd : Option CoroId) :
    Kids (s.newHandler c total cd) s.nextHandler [] where
  nodup := .nil
  mem t := by
    refine ⟨fun ht => (by cases ht), fun ⟨hlt, hh⟩ => ?_⟩
    obtain ⟨hlt, hold⟩ := newHandler_reports hlt hh
    exact absurd (hb t _ hlt hold) (Nat.lt_irrefl _)

/-- As many tokens report to the handler as it waits for. -/
def State.Full (s : State P) (h : HandlerId) : Prop :=
  ∃ ts, Kids s h ts ∧ (s.handlers h).remaining = ts.length ∧ ts.length ≤ (s.handlers h).total

/-- The handler with the children `ts` never fires. -/
def Handler.Stalls (hd : Handler) (ts : List TokenId) : Prop :=
  match hd.cond with
  | .anyOf => ts = []
  | .allOf => ts.length < hd.remaining

/-- The token is the output token of a handler that never fires. -/
def State.Stuck (s : State P) (t : TokenId) : Prop :=
  ∃ h ts, h < s.nextHandler ∧ (s.handlers h).completionTkn = some t ∧ Kids s h ts ∧
    (s.handlers h).Stalls ts

/-! ### Awaitables that have been asked -/

mutual
/-- The compositions in the awaitable have stored the answers of their children. -/
def Awaitable.Asked {U : Type} : Awaitable U → Prop
  | .comp c as => c.ready.length = as.length ∧ c.remaining = c.ready.count false ∧ AskedAll as
  | _ => True

def Awaitable.AskedAll {U : Type} : List (Awaitable U) → Prop
  | [] => True
  | a :: as => a.Asked ∧ AskedAll as
end

mutual
theorem awaitReady_asked (a : Awaitable P.User) (s : State P) : (awaitReady a s).2.1.Asked := by
  cases a with
  | comp c as =>
      obtain ⟨hready, hlen, hasked⟩ := awaitReadyAll_asked as s
      exact ⟨hready.trans hlen.symm, rfl, hasked⟩
  | _ => trivial

theorem awaitReadyAll_asked (as : List (Awaitable P.User)) (s : State P) :
    (awaitReadyAll as s).1.length = as.length ∧ (awaitReadyAll as s).2.1.length = as.length ∧
      Awaitable.AskedAll (awaitReadyAll as s).2.1 := by
  cases as with
  | nil => exact ⟨rfl, rfl, trivial⟩
  | cons a as =>
      obtain ⟨hready, hlen, hasked⟩ := awaitReadyAll_asked as (awaitReady a s).2.2
      exact ⟨congrArg Nat.succ hready, congrArg Nat.succ hlen, awaitReady_asked a s, hasked⟩
end

/-! ### When await_suspend throws -/

mutual
/-- For an awaitable whose `await_suspend` throws: no `any_of` on the way to the child
that throws has suspended another child before. -/
def harmless (coroData : Option CoroId) : Awaitable P.User → State P → Bool
  | .comp c as, s =>
    harmlessAll coroData c.cond s.nextHandler c.ready as (s.newHandler c as.length coroData)
  | _, _ => true

def harmlessAll (coroData : Option CoroId) (cond : Condition) (handler : HandlerId)
    (ready : List Bool) : List (Awaitable P.User) → State P → Bool
  | [], _ => true
  | a :: as, s =>
    if ready.headD false then harmlessAll coroData cond handler ready.tail as s
    else match awaitSuspend coroData a s with
      | (.error _, _) => harmless coroData a s
      | (.ok a', s') =>
        decide (cond = .allOf) &&
          harmlessAll coroData cond handler ready.tail as (installOn s' handler (awaitToken s' a'))
end

/-! ### await_suspend -/

/-- The children of an older handler, and what a newer one may do to them. -/
theorem State.Full.keep {outer : Option HandlerId} (hf : s.Full h) (hx : Ext s.nextToken s s')
    (hr : NewReports outer s s') (hh : h < s.nextHandler) (hne : outer ≠ some h) : s'.Full h := by
  obtain ⟨ts, hk, hlen⟩ := hf
  exact ⟨ts, hk.ext hx hr hh hne, by rw [hx.handler h hh]; exact hlen⟩

/-- What `await_suspend` does to handlers, from `s` to `s'`: `throws` says whether it
throws, and `harmless` whether it then leaves nothing behind. -/
structure Suspended (throws harmless : Bool) (s s' : State P) : Prop where
  reports : NewReports none s s'
  full : throws = false → ∀ h, s.nextHandler ≤ h → h < s'.nextHandler → s'.Full h
  stuck : throws = true → harmless = true → ∀ t, s.nextToken ≤ t → t < s'.nextToken →
    (s'.tokens t).handler = none → s'.Stuck t

/-- The same for the loop over the children of handler `hd`, to which the tokens `ts`
report so far. -/
structure SuspendedAll (hd : HandlerId) (ts : List TokenId) (ready : List Bool)
    (throws harmless : Bool) (s s' : State P) : Prop where
  reports : NewReports (some hd) s s'
  full : throws = false → ∀ h, s.nextHandler ≤ h → h < s'.nextHandler → s'.Full h
  kids : ∃ us, Kids s' hd (ts ++ us) ∧ (throws = false → us.length = ready.count false) ∧
    (throws = true → us.length < ready.count false ∧
      (harmless = true → (s.handlers hd).cond = .anyOf → us = []))
  stuck : throws = true → harmless = true → ∀ t, s.nextToken ≤ t → t < s'.nextToken →
    (s'.tokens t).handler = none → s'.Stuck t

namespace Suspended

theorem refl (harmless : Bool) (s : State P) : Suspended true harmless s s where
  reports := .refl none s
  full ht := by cases ht
  stuck _ _ _ hle hlt := absurd hlt (Nat.not_lt.mpr hle)

theorem single (harmless : Bool) (hnt : s'.nextToken = s.nextToken + 1)
    (hnh : s'.nextHandler = s.nextHandler) (hfree : (s'.tokens s.nextToken).handler = none) :
    Suspended false harmless s s' where
  reports := .single hnt hfree
  full _ h hle hlt := absurd (hnh ▸ hlt) (Nat.not_lt.mpr hle)
  stuck ht := by cases ht

/-- A composition, from what the loop over its children does. -/
theorem comp {cd : Option CoroId} {c : Comp} {total : Nat} {throws harmless : Bool}
    (hx : Ext (s.newHandler c total cd).nextToken (s.newHandler c total cd) s')
    (hlen : c.ready.length = total) (hrem : c.remaining = c.ready.count false)
    (hall : SuspendedAll s.nextHandler [] c.ready throws harmless (s.newHandler c total cd) s') :
    Suspended throws harmless s s' := by
  have hhd : s'.handlers s.nextHandler = ⟨c.cond, total, c.remaining, some s.nextToken⟩ := by
    rw [hx.handler s.nextHandler (Nat.lt_succ_self _)]
    simp [State.newHandler]
  have hnew : s.nextHandler < s'.nextHandler := hx.nextHandler
  have hout : (s'.tokens s.nextToken).handler = none := by
    rw [(hx.tokenFields s.nextToken (Nat.lt_succ_self _) (Nat.lt_succ_self _)).1]
    simp [State.newHandler, State.newToken]
  obtain ⟨us, hk, hok, hthrow⟩ := hall.kids
  refine ⟨fun t h hle hlt hh => ?_, fun ht h hle hlt => ?_, fun ht hl t hle hlt hfree => ?_⟩
  · rcases Nat.eq_or_lt_of_le hle with rfl | hgt
    · rw [hout] at hh
      cases hh
    · refine .inr ?_
      cases hall.reports t h hgt hlt hh with
      | inl heq => cases heq; exact ⟨Nat.le_refl _, hnew⟩
      | inr hle => exact ⟨Nat.le_of_lt hle.1, hle.2⟩
  · rcases Nat.eq_or_lt_of_le hle with rfl | hgt
    · refine ⟨us, hk, by rw [hhd]; exact hrem.trans (hok ht).symm, ?_⟩
      rw [hhd, hok ht, ← hlen]
      exact List.count_le_length
    · exact hall.full ht h hgt hlt
  · rcases Nat.eq_or_lt_of_le hle with rfl | hgt
    · refine ⟨s.nextHandler, us, hnew, by rw [hhd], hk, ?_⟩
      rw [hhd]
      unfold Handler.Stalls
      have hcond : ((s.newHandler c total cd).handlers s.nextHandler).cond = c.cond := by
        simp [State.newHandler]
      rw [hcond] at hthrow
      cases hc : c.cond with
      | anyOf => exact (hthrow ht).2 hl hc
      | allOf => exact Nat.lt_of_lt_of_eq (hthrow ht).1 hrem.symm
    · exact hall.stuck ht hl t hgt hlt hfree

end Suspended

namespace SuspendedAll

variable {hd : HandlerId} {ready : List Bool}

theorem nil (harmless : Bool) (hk : Kids s hd ts) :
    SuspendedAll hd ts [] false harmless s s where
  reports := .refl _ s
  full _ h hle hlt := absurd hlt (Nat.not_lt.mpr hle)
  kids := ⟨[], by rw [List.append_nil]; exact hk, fun _ => rfl, fun ht => by cases ht⟩
  stuck ht := by cases ht

/-- A child that was ready is skipped. -/
theorem skip {throws harmless : Bool} (hall : SuspendedAll hd ts ready throws harmless s s') :
    SuspendedAll hd ts (true :: ready) throws harmless s s' where
  reports := hall.reports
  full := hall.full
  kids := by simpa using hall.kids
  stuck := hall.stuck

/-- The child that throws. -/
theorem throws {harmless : Bool} (hk : Kids s hd ts) (hh : hd < s.nextHandler)
    (hx : Ext s.nextToken s s') (ha : Suspended true harmless s s') :
    SuspendedAll hd ts (false :: ready) true harmless s s' where
  reports := ha.reports.some hd
  full ht := by cases ht
  kids := by
    refine ⟨[], ?_, fun ht => (by cases ht), fun _ => ⟨by simp, fun _ _ => rfl⟩⟩
    rw [List.append_nil]
    exact hk.ext hx ha.reports hh (by simp)
  stuck := ha.stuck

/-- A child that is suspended, and the children after it. -/
theorem cons {throws harmless hl1 : Bool} {cond : Condition} {s1 s2 : State P}
    (hh : hd < s.nextHandler) (hcond : (s.handlers hd).cond = cond) (hx : Ext s.nextToken s s1)
    (hlt : s.nextToken < s1.nextToken)
    (hfree : ∀ t, s.nextToken ≤ t → t < s1.nextToken →
      ((s1.tokens t).handler = none ↔ t = s.nextToken))
    (ha : Suspended false hl1 s s1)
    (hx' : Ext (s1.install s.nextToken hd).nextToken (s1.install s.nextToken hd) s2)
    (hall : SuspendedAll hd (ts ++ [s.nextToken]) ready throws harmless
      (s1.install s.nextToken hd) s2) :
    SuspendedAll hd ts (false :: ready) throws (decide (cond = .allOf) && harmless) s s2 := by
  have hne : ∀ {h}, s.nextHandler ≤ h → hd ≠ h := fun hle =>
    Nat.ne_of_lt (Nat.lt_of_lt_of_le hh hle)
  have hown : (s1.tokens s.nextToken).handler = none := (hfree _ (Nat.le_refl _) hlt).mpr rfl
  have hsame : (s1.handlers hd).cond = cond := by rw [hx.handler hd hh]; exact hcond
  obtain ⟨us, hkids, hok, hthrow⟩ := hall.kids
  refine ⟨?_, fun ht h hle hnew => ?_, ⟨s.nextToken :: us, ?_, fun ht => ?_, fun ht => ?_⟩,
    fun ht hl t hle hnew hth => ?_⟩
  · exact (ha.reports.install s.nextToken).trans hall.reports hx.nextHandler hx'.nextHandler
      fun t ht => (hx'.tokenFields t ht ht).1
  · cases Nat.lt_or_ge h s1.nextHandler with
    | inl hlt1 =>
        obtain ⟨us1, hk1, hlen⟩ := ha.full rfl h hle hlt1
        have hf : (s1.install s.nextToken hd).Full h := ⟨us1, hk1.install_ne (hne hle) hown, hlen⟩
        exact hf.keep hx' hall.reports hlt1 fun heq => hne hle (Option.some.inj heq)
    | inr hge => exact hall.full ht h hge hnew
  · rw [← List.singleton_append, ← List.append_assoc]
    exact hkids
  · simpa using hok ht
  · refine ⟨by simpa using (hthrow ht).1, fun hl hany => ?_⟩
    rw [hcond.symm.trans hany] at hl
    cases hl
  · have hl : harmless = true := (Bool.and_eq_true_iff.mp hl).2
    cases Nat.lt_or_ge t s1.nextToken with
    | inl hlt1 =>
        -- the tokens of a child that is suspended report to a handler
        rw [(hx'.tokenFields t hlt1 hlt1).1] at hth
        by_cases hu : t = s.nextToken
        · subst hu
          rw [State.install_handler] at hth
          cases hth
        · rw [State.install_tokens_ne s1 hd hu] at hth
          exact absurd ((hfree t hle hlt1).mp hth) hu
    | inr hge => exact hall.stuck ht hl t hge hnew hth

end SuspendedAll

/-- Whether the function throws. -/
def throws {α : Type} (r : Except (Exn P.Error) α × State P) : Bool :=
  match r.1 with
  | .ok _ => false
  | .error _ => true

section
variable (cd : Option CoroId)

mutual
theorem awaitSuspend_handlers (a : Awaitable P.User) (s : State P) (hs : s.Tidy False)
    (hb : s.Bounded) (ha : Suspendable s a) (hask : a.Asked) :
    Suspended (throws (awaitSuspend cd a s)) (harmless cd a s) s (awaitSuspend cd a s).2 := by
  cases a with
  | timeout relative time priority tkn =>
      exact .single _ rfl rfl (by simp [awaitSuspend, State.scheduleToken, State.newToken])
  | wait evt latency priority tkn =>
      exact .single _ rfl rfl (by simp [awaitSuspend, State.newWaiter, State.newToken])
  | coroutine p tkn =>
      cases tkn with
      | some t => exact .refl _ s
      | none =>
          exact .single _ rfl rfl
            (by simp [awaitSuspend, State.suspendHandle, State.newCompletion, State.setCoro,
              State.newToken])
  | ref o =>
      simp only [awaitSuspend, State.suspendHandle]
      cases hr : (s.objects o).2 with
      | some t => exact .refl _ s
      | none =>
          exact .single _ rfl rfl
            (by simp [State.setObject, State.newCompletion, State.setCoro, State.newToken])
  | comp c as =>
      have hnew : Edit cd s.nextToken False s (s.newHandler c as.length cd) :=
        .newHandler c as.length fun hf => hf.elim
      have hext := hnew.ext
      have htidy := Edits.tidy (.single hnew) hs
      have hsus := hext.suspendableAll (show SuspendableAll s c.ready as from ha)
      have hb0 := hb.newHandler c as.length cd
      have hk0 := Kids.newHandler hb c as.length cd
      have hout : ((s.newHandler c as.length cd).handlers s.nextHandler).completionTkn =
          some s.nextToken := by simp [State.newHandler]
      have hcd : ((s.newHandler c as.length cd).tokens s.nextToken).coroData = cd := by
        simp [State.newHandler, State.newToken]
      have hx := (awaitSuspendAll_spec cd s.nextHandler s.nextToken as c.ready
        (s.newHandler c as.length cd) htidy hsus (fun hf => hf.elim) (Nat.lt_succ_self _) hout
        (Nat.lt_succ_self _) hcd).1.ext
      have hall := awaitSuspendAll_handlers s.nextHandler s.nextToken as c.ready
        (s.newHandler c as.length cd) htidy hb0 hsus hask.2.2 hask.1 (Nat.lt_succ_self _) hout
        (Nat.lt_succ_self _) hcd hk0
      have hcond : ((s.newHandler c as.length cd).handlers s.nextHandler).cond = c.cond := by
        simp [State.newHandler]
      rw [hcond] at hall
      have h := Suspended.comp hx hask.1 hask.2.1 hall
      simp only [awaitSuspend, harmless]
      rcases hr : awaitSuspendAll cd s.nextHandler c.ready as (s.newHandler c as.length cd)
        with ⟨_ | as', s1⟩ <;> rw [hr] at h <;> exact h
  | _ => cases ha

theorem awaitSuspendAll_handlers (hd : HandlerId) (out : TokenId) (as : List (Awaitable P.User))
    (ready : List Bool) (s : State P) (hs : s.Tidy False) (hb : s.Bounded)
    (ha : SuspendableAll s ready as) (hask : Awaitable.AskedAll as)
    (hlen : ready.length = as.length) (hh : hd < s.nextHandler)
    (ho : (s.handlers hd).completionTkn = some out) (hlt : out < s.nextToken)
    (hc : (s.tokens out).coroData = cd) {ts : List TokenId} (hk : Kids s hd ts) :
    SuspendedAll hd ts ready (throws (awaitSuspendAll cd hd ready as s))
      (harmlessAll cd (s.handlers hd).cond hd ready as s) s
        (awaitSuspendAll cd hd ready as s).2 := by
  cases as with
  | nil =>
      obtain rfl : ready = [] := List.eq_nil_of_length_eq_zero hlen
      exact .nil _ hk
  | cons a as =>
      obtain ⟨b, ready, rfl⟩ : ∃ b bs, ready = b :: bs := by
        cases ready with
        | nil => cases hlen
        | cons b bs => exact ⟨b, bs, rfl⟩
      have hlen' : ready.length = as.length := Nat.succ.inj hlen
      cases b with
      | true =>
          have hall := (awaitSuspendAll_handlers hd out as ready s hs hb ha.2 hask.2 hlen' hh ho hlt
            hc hk).skip
          simp only [awaitSuspendAll, harmlessAll, List.headD_cons, List.tail_cons, if_true]
          rcases hr : awaitSuspendAll cd hd ready as s with ⟨_ | as', s1⟩ <;> rw [hr] at hall <;>
            exact hall
      | false =>
          have hsus := ha.1 rfl
          obtain ⟨he, hok⟩ := awaitSuspend_spec cd a s hs hsus (fun hf => hf.elim)
          have ha1 := awaitSuspend_handlers a s hs hb hsus hask.1
          simp only [awaitSuspendAll, harmlessAll, List.headD_cons, List.tail_cons,
            Bool.false_eq_true, if_false]
          rcases hr : awaitSuspend cd a s with ⟨_ | a', s1⟩ <;> rw [hr] at ha1 he
          · exact .throws hk hh he.ext ha1
          · obtain ⟨htkn, hlt1, hcr⟩ := hok a' s1 hr
            have hx := he.ext
            have hfree := hcr.free_handler (Nat.le_refl _) hlt1
            have hinst : Edit cd s.nextToken False s1 (s1.install s.nextToken hd) := by
              refine .install _ hd (Nat.le_refl _) hlt1 (Nat.lt_of_lt_of_le hh hx.nextHandler) hfree
                (hcr.eptr _ (Nat.le_refl _) hlt1) ?_
              intro out' hout'
              rw [hx.handler hd hh, ho] at hout'
              cases hout'
              rw [(hx.tokenFields out hlt hlt).2.1, hc, hcr.coroData _ (Nat.le_refl _) hlt1]
            have he2 := he.tail hinst
            have hx2 := Edits.ext he2
            have hreports : NewReports (some hd) s (s1.install s.nextToken hd) :=
              ha1.reports.install s.nextToken
            have hk2 := (hk.ext hx ha1.reports hh (by simp)).install hlt1 hfree
            have hstate : (s1.install s.nextToken hd).Tidy False := Edits.tidy he2 hs
            have hsus2 := hx2.suspendableAll ha.2
            have hhd2 : (s1.install s.nextToken hd).handlers hd = s.handlers hd := hx2.handler hd hh
            have hh2 := Nat.lt_of_lt_of_le hh hx2.nextHandler
            have ho2 := (congrArg Handler.completionTkn hhd2).trans ho
            have hlt2 := Nat.lt_of_lt_of_le hlt hx2.nextToken
            have hc2 := (hx2.tokenFields out hlt hlt).2.1.trans hc
            have hrest := (awaitSuspendAll_spec cd hd out as ready _ hstate hsus2
              (fun hf => hf.elim) hh2 ho2 hlt2 hc2).1.ext
            have hall := awaitSuspendAll_handlers hd out as ready _ hstate
              (hreports.bounded hx2 hb hh) hsus2 hask.2 hlen' hh2 ho2 hlt2 hc2 hk2
            rw [hhd2] at hall
            have h := SuspendedAll.cons hh rfl hx hlt1 (fun t => hcr.handler_none (Nat.le_refl _))
              ha1 hrest hall
            simp only [htkn, installOn]
            rcases hr' : awaitSuspendAll cd hd ready as (s1.install s.nextToken hd)
              with ⟨_ | as', s2⟩ <;> rw [hr'] at h <;> exact h
end

end

/-! ### Binding and asking create no handlers and await no objects -/

section
variable {α : Type} {π : State P → α}

theorem bind_keeps (hstart : ∀ s c priority, π (s.startCoro c priority) = π s) (priority : Int)
    (s : State P) (c : CoroId) : π (s.bind_ c priority).2 = π s := by
  unfold State.bind_
  split
  · rfl
  · rfl
  · exact hstart s c _

theorem detach_keeps (hstart : ∀ s c priority, π (s.startCoro c priority) = π s)
    (hcompletion : ∀ s p cd, π (s.newCompletion p cd) = π s) (priority : Int)
    (s : State P) (p : Handle) : π (s.detach p priority).2 = π s := by
  have h1 := bind_keeps hstart priority s p.coro
  unfold State.detach
  rcases hr : s.bind_ p.coro priority with ⟨_ | _, s1⟩ <;> rw [hr] at h1
  · exact h1
  · simp only
    split
    · exact h1
    · exact (hcompletion s1 p none).trans h1

theorem toHandle_keeps (hnew : ∀ s f o, π (s.newCoro f o) = π s) (s : State P)
    (a : Awaitable P.User) : π (toHandle s a).2 = π s := by
  cases a with
  | coroutine | ref => rfl
  | timeout | wait | wake | call | sequential | async | comp => exact hnew _ _ _

mutual
/-- What creating, starting and detaching processes keep, `await_bind` keeps. -/
theorem awaitBind_keeps (hnew : ∀ s f o, π (s.newCoro f o) = π s)
    (hstart : ∀ s c priority, π (s.startCoro c priority) = π s)
    (hcompletion : ∀ s p cd, π (s.newCompletion p cd) = π s) (priority : Int)
    (a : Awaitable P.User) (s : State P) : π (awaitBind priority a s).2 = π s := by
  cases a with
  | timeout | wait | wake => rfl
  | call f o => exact (hstart _ _ _).trans (hnew _ _ _)
  | sequential as o => exact (hstart _ _ _).trans (hnew _ _ _)
  | coroutine p tkn =>
      have h1 := bind_keeps hstart priority s p.coro
      unfold awaitBind
      rcases hr : s.bind_ p.coro priority with ⟨_ | _, s1⟩ <;> rw [hr] at h1 <;> exact h1
  | ref o =>
      have h1 := bind_keeps hstart priority s (s.objects o).1.coro
      unfold awaitBind
      rcases hr : s.bind_ (s.objects o).1.coro priority with ⟨_ | _, s1⟩ <;> rw [hr] at h1 <;>
        exact h1
  | async a =>
      have h1 := (detach_keeps hstart hcompletion priority (toHandle s a).2
        (toHandle s a).1).trans (toHandle_keeps hnew s a)
      unfold awaitBind
      rcases hr : (toHandle s a).2.detach (toHandle s a).1 priority with ⟨_ | _, s1⟩ <;>
        rw [hr] at h1 <;> exact h1
  | comp c as =>
      have h1 := awaitBindAll_keeps hnew hstart hcompletion
        (resolvePriority c.priority priority) as s
      unfold awaitBind
      rcases hr : awaitBindAll (resolvePriority c.priority priority) as s with ⟨_ | _, s1⟩ <;>
        rw [hr] at h1 <;> exact h1

theorem awaitBindAll_keeps (hnew : ∀ s f o, π (s.newCoro f o) = π s)
    (hstart : ∀ s c priority, π (s.startCoro c priority) = π s)
    (hcompletion : ∀ s p cd, π (s.newCompletion p cd) = π s) (priority : Int)
    (as : List (Awaitable P.User)) (s : State P) : π (awaitBindAll priority as s).2 = π s := by
  cases as with
  | nil => rfl
  | cons a as =>
      have h1 := awaitBind_keeps hnew hstart hcompletion priority a s
      unfold awaitBindAll
      rcases hr : awaitBind priority a s with ⟨_ | _, s1⟩ <;> rw [hr] at h1
      · exact h1
      · have h2 := (awaitBindAll_keeps hnew hstart hcompletion priority as s1).trans h1
        simp only
        rcases hr2 : awaitBindAll priority as s1 with ⟨_ | _, s2⟩ <;> rw [hr2] at h2 <;> exact h2
end

mutual
/-- What waking an event keeps, `await_ready` keeps. -/
theorem awaitReady_keeps (hwake : ∀ s evt, π (s.wake evt) = π s) (a : Awaitable P.User)
    (s : State P) : π (awaitReady a s).2.2 = π s := by
  cases a with
  | wake evt => exact hwake s evt
  | comp c as => exact awaitReadyAll_keeps hwake as s
  | timeout | wait | coroutine | ref | call | sequential | async => rfl

theorem awaitReadyAll_keeps (hwake : ∀ s evt, π (s.wake evt) = π s)
    (as : List (Awaitable P.User)) (s : State P) : π (awaitReadyAll as s).2.2 = π s := by
  cases as with
  | nil => rfl
  | cons a as => exact (awaitReadyAll_keeps hwake as _).trans (awaitReady_keeps hwake a s)
end

end

theorem awaitBind_nextHandler (priority : Int) (a : Awaitable P.User) (s : State P) :
    (awaitBind priority a s).2.nextHandler = s.nextHandler :=
  awaitBind_keeps (π := State.nextHandler) (fun _ _ _ => rfl) (fun _ _ _ => rfl)
    (fun _ _ _ => rfl) priority a s

theorem awaitReady_nextHandler (a : Awaitable P.User) (s : State P) :
    (awaitReady a s).2.2.nextHandler = s.nextHandler :=
  awaitReady_keeps (π := State.nextHandler) (fun _ _ => by simp [State.wake]) a s

theorem awaitBind_objects (priority : Int) (a : Awaitable P.User) (s : State P) :
    (awaitBind priority a s).2.objects = s.objects :=
  awaitBind_keeps (π := State.objects) (fun _ _ _ => rfl) (fun _ _ _ => rfl)
    (fun _ _ _ => rfl) priority a s

theorem awaitReady_objects (a : Awaitable P.User) (s : State P) :
    (awaitReady a s).2.2.objects = s.objects :=
  awaitReady_keeps (π := State.objects) (fun _ _ => by simp [State.wake]) a s

end Cxxdes
