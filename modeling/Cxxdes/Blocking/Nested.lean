-- SUMMARY: The handlers of a suspended composition: none of them is satisfied yet, and output tokens are older than children.
import Cxxdes.Await.Handlers

/-!
# Nested compositions

A composition that is suspended still has to wait, and so do the compositions in it that were not
ready. The output token of a handler is created before the tokens of its children, so that a chain
of handlers in handlers comes to an end.
-/

namespace Cxxdes

variable {P : Program} {s s' s1 s2 : State P} {h : HandlerId}

/-! ### Compositions that have to wait -/

mutual
/-- The awaitable is not ready by its own answers, nor are the children it waits for. -/
def Awaitable.Refused {U : Type} : Awaitable U → Prop
  | .comp c as => c.cond.holds as.length c.remaining = false ∧ RefusedAll c.ready as
  | _ => True

def Awaitable.RefusedAll {U : Type} (ready : List Bool) : List (Awaitable U) → Prop
  | [] => True
  | a :: as => (ready.headD false = false → a.Refused) ∧ RefusedAll ready.tail as
end

mutual
theorem awaitReady_refused (a : Awaitable P.User) (s : State P)
    (hr : (awaitReady a s).1 = false) : (awaitReady a s).2.1.Refused := by
  cases a with
  | comp c as =>
      have hlen := (awaitReadyAll_asked as s).2.1
      refine ⟨?_, awaitReadyAll_refused as s⟩
      rw [hlen]
      exact hr
  | _ => trivial

theorem awaitReadyAll_refused (as : List (Awaitable P.User)) (s : State P) :
    Awaitable.RefusedAll (awaitReadyAll as s).1 (awaitReadyAll as s).2.1 := by
  cases as with
  | nil => trivial
  | cons a as => exact ⟨awaitReady_refused a s, awaitReadyAll_refused as (awaitReady a s).2.2⟩
end

/-! ### New handlers -/

/-- Between `s` and `s'` handlers are created that wait, with output tokens that are older than
the tokens that report to them. -/
structure Layered (s s' : State P) : Prop where
  waits : ∀ h, s.nextHandler ≤ h → h < s'.nextHandler →
    (s'.handlers h).cond.holds (s'.handlers h).total (s'.handlers h).remaining = false
  below : ∀ h out u, s.nextHandler ≤ h → h < s'.nextHandler →
    (s'.handlers h).completionTkn = some out → u < s'.nextToken →
    (s'.tokens u).handler = some h → out < u

namespace Layered

theorem none_new (hn : s'.nextHandler = s.nextHandler) : Layered s s' where
  waits _ hle hlt := absurd (hn ▸ hlt) (Nat.not_lt.mpr hle)
  below _ _ _ hle hlt := absurd (hn ▸ hlt) (Nat.not_lt.mpr hle)

/-- Older tokens keep their handlers, and new ones report to newer handlers, or to `outer`. -/
theorem trans {outer : Option HandlerId} (hl : Layered s s1) (hl' : Layered s1 s2)
    (hx : Ext s1.nextToken s1 s2) (hr : NewReports outer s1 s2)
    (hout : ∀ hd, outer = some hd → hd < s.nextHandler) : Layered s s2 where
  waits h hle hlt := by
    cases Nat.lt_or_ge h s1.nextHandler with
    | inl hold =>
        rw [hx.handler h hold]
        exact hl.waits h hle hold
    | inr hge => exact hl'.waits h hge hlt
  below h out u hle hlt ho hu hh := by
    cases Nat.lt_or_ge h s1.nextHandler with
    | inl hold =>
        rw [hx.handler h hold] at ho
        cases Nat.lt_or_ge u s1.nextToken with
        | inl hold' =>
            rw [(hx.tokenFields u hold' hold').1] at hh
            exact hl.below h out u hle hold ho hold' hh
        | inr hge =>
            cases hr u h hge hu hh with
            | inl heq => exact absurd (hout h heq) (Nat.not_lt.mpr hle)
            | inr hnew => exact absurd hold (Nat.not_lt.mpr hnew.1)
    | inr hge => exact hl'.below h out u hge hlt ho hu hh

/-- The token of a child is installed on an older handler. -/
theorem install {hd : HandlerId} (hl : Layered s s') (hh : hd < s.nextHandler) (t : TokenId) :
    Layered s (s'.install t hd) where
  waits := hl.waits
  below h out u hle hlt ho hu hth := by
    by_cases hut : u = t
    · subst hut
      rw [State.install_handler] at hth
      exact absurd (Option.some.inj hth ▸ hh) (Nat.not_lt.mpr hle)
    · rw [State.install_tokens_ne s' hd hut] at hth
      exact hl.below h out u hle hlt ho hu hth

/-- A composition, from the handlers of its children. -/
theorem comp {cd : Option CoroId} {c : Comp} {total : Nat} (hb : s.Bounded)
    (hx : Ext (s.newHandler c total cd).nextToken (s.newHandler c total cd) s')
    (hc : c.cond.holds total c.remaining = false)
    (hl : Layered (s.newHandler c total cd) s') : Layered s s' := by
  have hhd : s'.handlers s.nextHandler = ⟨c.cond, total, c.remaining, some s.nextToken⟩ := by
    rw [hx.handler s.nextHandler (Nat.lt_succ_self _)]
    simp [State.newHandler]
  refine ⟨fun h hle hlt => ?_, fun h out u hle hlt ho hu hh => ?_⟩
  · rcases Nat.eq_or_lt_of_le hle with rfl | hgt
    · rw [hhd]
      exact hc
    · exact hl.waits h hgt hlt
  · rcases Nat.eq_or_lt_of_le hle with rfl | hgt
    · rw [hhd] at ho
      cases ho
      -- no token that exists when the handler is created reports to it
      refine Nat.lt_of_not_le fun hold => ?_
      have hu0 : u < (s.newHandler c total cd).nextToken := Nat.lt_succ_of_le hold
      rw [(hx.tokenFields u hu0 hu0).1] at hh
      obtain ⟨hlt0, hh0⟩ := newHandler_reports hu0 hh
      exact Nat.lt_irrefl _ (hb u s.nextHandler hlt0 hh0)
    · exact hl.below h out u hgt hlt ho hu hh

end Layered

section
variable (cd : Option CoroId)

mutual
theorem awaitSuspend_layered (a : Awaitable P.User) (s : State P) (hs : s.Tidy False)
    (hb : s.Bounded) (ha : Suspendable s a) (hask : a.Asked) (href : a.Refused)
    {a' : Awaitable P.User} {s' : State P} (hok : awaitSuspend cd a s = (.ok a', s')) :
    Layered s s' := by
  cases a with
  | timeout relative time priority tkn =>
      cases hok
      exact .none_new rfl
  | wait evt latency priority tkn =>
      cases hok
      exact .none_new rfl
  | coroutine p tkn =>
      cases tkn with
      | some t => cases hok
      | none =>
          cases hok
          exact .none_new rfl
  | ref o =>
      simp only [awaitSuspend, State.suspendHandle] at hok
      cases hr : (s.objects o).2 with
      | some t =>
          rw [hr] at hok
          cases hok
      | none =>
          rw [hr] at hok
          cases hok
          exact .none_new rfl
  | comp c as =>
      have hnew : Edit cd s.nextToken False s (s.newHandler c as.length cd) :=
        .newHandler c as.length fun hf => hf.elim
      have htidy := Edits.tidy (.single hnew) hs
      have hsus := hnew.ext.suspendableAll (show SuspendableAll s c.ready as from ha)
      have hb0 := hb.newHandler c as.length cd
      have hk0 := Kids.newHandler hb c as.length cd
      have hout : ((s.newHandler c as.length cd).handlers s.nextHandler).completionTkn =
          some s.nextToken := by simp [State.newHandler]
      have hcd : ((s.newHandler c as.length cd).tokens s.nextToken).coroData = cd := by
        simp [State.newHandler, State.newToken]
      have hx := (awaitSuspendAll_spec cd s.nextHandler s.nextToken as c.ready
        (s.newHandler c as.length cd) htidy hsus (fun hf => hf.elim) (Nat.lt_succ_self _) hout
        (Nat.lt_succ_self _) hcd).1.ext
      simp only [awaitSuspend] at hok
      rcases hr : awaitSuspendAll cd s.nextHandler c.ready as (s.newHandler c as.length cd)
        with ⟨_ | as', s1⟩ <;> rw [hr] at hok hx <;> cases hok
      have hl := awaitSuspendAll_layered s.nextHandler s.nextToken as c.ready
        (s.newHandler c as.length cd) htidy hb0 hsus hask.2.2 href.2 hask.1 (Nat.lt_succ_self _)
        hout (Nat.lt_succ_self _) hcd hk0 hr
      exact .comp hb hx href.1 hl
  | _ => cases ha

theorem awaitSuspendAll_layered (hd : HandlerId) (out : TokenId) (as : List (Awaitable P.User))
    (ready : List Bool) (s : State P) (hs : s.Tidy False) (hb : s.Bounded)
    (ha : SuspendableAll s ready as) (hask : Awaitable.AskedAll as)
    (href : Awaitable.RefusedAll ready as) (hlen : ready.length = as.length)
    (hh : hd < s.nextHandler) (ho : (s.handlers hd).completionTkn = some out)
    (hlt : out < s.nextToken) (hc : (s.tokens out).coroData = cd) {ts : List TokenId}
    (hk : Kids s hd ts) {as' : List (Awaitable P.User)} {s' : State P}
    (hok : awaitSuspendAll cd hd ready as s = (.ok as', s')) : Layered s s' := by
  cases as with
  | nil =>
      cases hok
      exact .none_new rfl
  | cons a as =>
      obtain ⟨b, ready, rfl⟩ : ∃ b bs, ready = b :: bs := by
        cases ready with
        | nil => cases hlen
        | cons b bs => exact ⟨b, bs, rfl⟩
      have hlen' : ready.length = as.length := Nat.succ.inj hlen
      cases b with
      | true =>
          simp only [awaitSuspendAll, List.headD_cons, List.tail_cons, if_true] at hok
          rcases hr : awaitSuspendAll cd hd ready as s with ⟨_ | as1, s1⟩ <;> rw [hr] at hok <;>
            cases hok
          exact awaitSuspendAll_layered hd out as ready s hs hb ha.2 hask.2 href.2 hlen' hh ho hlt
            hc hk hr
      | false =>
          have hsus := ha.1 rfl
          obtain ⟨he, hspec⟩ := awaitSuspend_spec cd a s hs hsus fun hf => hf.elim
          have ha1 := awaitSuspend_handlers cd a s hs hb hsus hask.1
          simp only [awaitSuspendAll, List.headD_cons, List.tail_cons, Bool.false_eq_true,
            if_false] at hok
          rcases hr : awaitSuspend cd a s with ⟨_ | a1, s1⟩ <;> rw [hr] at hok ha1 he
          · cases hok
          · obtain ⟨htkn, hlt1, hcr⟩ := hspec a1 s1 hr
            have hl1 := awaitSuspend_layered a s hs hb hsus hask.1 (href.1 rfl) hr
            have hx := he.ext
            have hfree := hcr.free_handler (Nat.le_refl _) hlt1
            -- the state after the handler is installed, as in the spec of `await_suspend`
            have hinst : Edit cd s.nextToken False s1 (s1.install s.nextToken hd) := by
              refine .install _ hd (Nat.le_refl _) hlt1 (Nat.lt_of_lt_of_le hh hx.nextHandler) hfree
                (hcr.eptr _ (Nat.le_refl _) hlt1) ?_
              intro out' hout'
              rw [hx.handler hd hh, ho] at hout'
              cases hout'
              rw [(hx.tokenFields out hlt hlt).2.1, hc, hcr.coroData _ (Nat.le_refl _) hlt1]
            have he2 := he.tail hinst
            have hx2 := Edits.ext he2
            have hreports : NewReports (some hd) s (s1.install s.nextToken hd) :=
              ha1.reports.install s.nextToken
            have hk2 := (hk.ext hx ha1.reports hh (by simp)).install hlt1 hfree
            have hstate : (s1.install s.nextToken hd).Tidy False := Edits.tidy he2 hs
            have hsus2 := hx2.suspendableAll ha.2
            have hh2 := Nat.lt_of_lt_of_le hh hx2.nextHandler
            have ho2 := (congrArg Handler.completionTkn (hx2.handler hd hh)).trans ho
            have hlt2 := Nat.lt_of_lt_of_le hlt hx2.nextToken
            have hc2 := (hx2.tokenFields out hlt hlt).2.1.trans hc
            have hb2 := hreports.bounded hx2 hb hh
            have hrest := (awaitSuspendAll_spec cd hd out as ready _ hstate hsus2
              (fun hf => hf.elim) hh2 ho2 hlt2 hc2).1.ext
            have hall := awaitSuspendAll_handlers cd hd out as ready _ hstate hb2 hsus2 hask.2
              hlen' hh2 ho2 hlt2 hc2 hk2
            simp only [htkn, installOn] at hok
            rcases hr' : awaitSuspendAll cd hd ready as (s1.install s.nextToken hd)
              with ⟨_ | as2, s2⟩ <;> rw [hr'] at hok hrest hall <;> cases hok
            have hl2 := awaitSuspendAll_layered hd out as ready _ hstate hb2 hsus2 hask.2 href.2
              hlen' hh2 ho2 hlt2 hc2 hk2 hr'
            refine (hl1.install hh s.nextToken).trans hl2 hrest hall.reports fun hd' heq => ?_
            rw [← Option.some.inj heq]
            exact hh
end

end

end Cxxdes
