-- SUMMARY: How a composition counts its children, over every order in which they report and every set of them that fails.
import Cxxdes.Run.Current
import Cxxdes.Run.Tokens

/-!
# Compositions

A handler sees the tokens of its children once each. What it does with them depends on
the order only through the list of their outcomes: an `any_of` fires at the first child
that reports without an exception, an `all_of` at the last child if that one does.
-/

namespace Cxxdes

variable {P : Program} {s s' : State P} {h : HandlerId} {ts : List TokenId} {out : TokenId}

/-! ### Outcomes -/

/-- Whether a composition of `n` children has fired when they have reported `outcomes` in
this order, `true` for a child without an exception. -/
def Condition.fired (n : Nat) (outcomes : List Bool) : Condition → Bool
  | .anyOf => outcomes.any id
  | .allOf => decide (outcomes.length = n) && outcomes.getLast?.getD false

namespace Condition

variable {n : Nat} {outcomes : List Bool} {cond : Condition}

/-- A child that fails does not make the handler fire, nor does it undo that it has fired. -/
theorem fired_fail (hlt : outcomes.length < n) :
    cond.fired n (outcomes ++ [false]) = cond.fired n outcomes := by
  have hne : outcomes.length ≠ n := Nat.ne_of_lt hlt
  cases cond with
  | anyOf => simp [fired]
  | allOf => simp [fired, hne]

/-- A child that succeeds makes the handler fire if the condition holds for the children
that remain. -/
theorem fired_succeed {total : Nat} (hlt : outcomes.length < n) (hle : n ≤ total) :
    cond.fired n (outcomes ++ [true]) = (cond.fired n outcomes ||
      cond.holds total (sizeDecr (n - outcomes.length))) := by
  have hdecr : sizeDecr (n - outcomes.length) = n - outcomes.length - 1 :=
    if_neg (Nat.sub_ne_zero_of_lt hlt)
  have hne : outcomes.length ≠ n := Nat.ne_of_lt hlt
  rw [hdecr]
  cases cond with
  | anyOf =>
      have hrem : n - outcomes.length - 1 < total := by omega
      simp [fired, holds, hrem]
  | allOf =>
      have hiff : outcomes.length + 1 = n ↔ n - outcomes.length - 1 = 0 := by omega
      simp [fired, holds, hne, hiff]

end Condition

/-! ### The children that have reported -/

/-- The tokens of `ts` that have been executed, in order. -/
def State.reported (s : State P) (ts : List TokenId) : List TokenId :=
  s.executed.filter (· ∈ ts)

/-- Whether they were executed without an exception. -/
def State.outcomes (s : State P) (ts : List TokenId) : List Bool :=
  (s.reported ts).map fun t => (s.tokens t).eptr.isNone

theorem State.outcomes_length (s : State P) (ts : List TokenId) :
    (s.outcomes ts).length = (s.reported ts).length := List.length_map ..

theorem Kids.moves (hk : Kids s h ts) (hm : Moves s s') (hh : h < s.nextHandler) :
    Kids s' h ts := by
  refine hk.keep hm.nextToken (fun t ht => by rw [(hm.fields t ht).1]) fun t hle hlt hth => ?_
  cases hm.reports t h hle hlt hth with
  | inl heq => cases heq
  | inr hle => exact absurd hh (Nat.not_lt.mpr hle.1)

/-- An executed token keeps its outcome. -/
theorem Moves.outcomes (hm : Moves s s') (hs : Sound s) (ts : List TokenId) :
    s'.outcomes ts = s.outcomes ts := by
  obtain ⟨gone, own, ho⟩ := hs.owned
  unfold State.outcomes State.reported
  rw [hm.executed]
  refine List.map_congr_left fun t ht => ?_
  have hex := ho.executed t (List.mem_filter.mp ht).1
  have hlt : t < s.nextToken := ho.lt (by rw [hex]; simp)
  rw [hm.unheld t hlt fun hh => ho.executed_notLive hex (.inr hh)]

/-- A token that is executed reports. -/
theorem State.pop_reported {t : TokenId} (ht : t ∈ ts) :
    (s.pop t).reported ts = s.reported ts ++ [t] := by
  simp [State.reported, State.pop, ht]

theorem State.pop_outcomes {t : TokenId} (ht : t ∈ ts) :
    (s.pop t).outcomes ts = s.outcomes ts ++ [(s.tokens t).eptr.isNone] := by
  unfold State.outcomes
  rw [State.pop_reported ht, List.map_append]
  rfl

theorem State.pop_outcomes_of_notMem {t : TokenId} (ht : t ∉ ts) :
    (s.pop t).outcomes ts = s.outcomes ts := by
  simp [State.outcomes, State.reported, State.pop, ht]

/-- A pending child is still to report. -/
theorem State.outcomes_lt (hs : Sound s) {t : TokenId} (hq : t ∈ s.queue) (ht : t ∈ ts) :
    (s.outcomes ts).length < ts.length := by
  obtain ⟨gone, own, ho⟩ := hs.owned
  rw [State.outcomes_length]
  have hnot : t ∉ s.reported ts := fun hm => by
    have hex := ho.executed t (List.mem_filter.mp hm).1
    rw [ho.queue t hq] at hex
    cases hex
  have hnd : (t :: s.reported ts).Nodup :=
    List.nodup_cons.mpr ⟨hnot, ho.executedNodup.filter _⟩
  have hsub : t :: s.reported ts ⊆ ts := by
    intro u hu
    cases List.mem_cons.mp hu with
    | inl heq => rw [heq]; exact ht
    | inr hm => exact of_decide_eq_true (List.mem_filter.mp hm).2
  exact List.Nodup.length_le_of_subset hnd hsub

/-! ### The tally -/

/-- What handler `h` with the children `ts` and the output token `out` has counted. -/
structure Tally (h : HandlerId) (ts : List TokenId) (out : TokenId) (s : State P) : Prop where
  handler : h < s.nextHandler
  token : out < s.nextToken
  kids : Kids s h ts
  total : ts.length ≤ (s.handlers h).total
  remaining : (s.handlers h).remaining + (s.outcomes ts).length = ts.length
  completionTkn : (s.handlers h).completionTkn =
    if (s.handlers h).cond.fired ts.length (s.outcomes ts) then none else some out
  released : (s.handlers h).cond.fired ts.length (s.outcomes ts) = true → ¬ s.Held out
  scheduled : s.scheduled.count out =
    if (s.handlers h).cond.fired ts.length (s.outcomes ts) then 1 else 0

namespace Tally

/-- The handler has not fired, or fires no more. -/
theorem keep (ht : Tally h ts out s) (hnt : s.nextToken ≤ s'.nextToken)
    (hnh : s.nextHandler ≤ s'.nextHandler) (hkids : Kids s' h ts) (hheld : s'.Held out → s.Held out)
    (hpushed : ∃ us, s'.scheduled = s.scheduled ++ us ∧
      ∀ t ∈ us, ¬ s'.Held t ∧ (s.Held t ∨ s.nextToken ≤ t))
    (heq : s'.handlers h = { s.handlers h with remaining := (s'.handlers h).remaining })
    (hrem : (s'.handlers h).remaining + (s'.outcomes ts).length = ts.length)
    (hfired : (s.handlers h).cond.fired ts.length (s'.outcomes ts) =
      (s.handlers h).cond.fired ts.length (s.outcomes ts)) : Tally h ts out s' := by
  have hcond : (s'.handlers h).cond = (s.handlers h).cond := by rw [heq]
  have htkn : (s'.handlers h).completionTkn = (s.handlers h).completionTkn := by rw [heq]
  have htotal : (s'.handlers h).total = (s.handlers h).total := by rw [heq]
  refine ⟨Nat.lt_of_lt_of_le ht.handler hnh, Nat.lt_of_lt_of_le ht.token hnt, hkids,
    by rw [htotal]; exact ht.total, hrem, ?_, ?_, ?_⟩ <;> rw [hcond, hfired]
  · rw [htkn]; exact ht.completionTkn
  · exact fun hf hh => ht.released hf (hheld hh)
  · obtain ⟨us, hus, hnew⟩ := hpushed
    -- the output token is not scheduled by others: before it has fired it stays held
    have hno : out ∉ us := by
      intro hmem
      obtain ⟨hfree, hor⟩ := hnew out hmem
      have hout := hor.resolve_right (Nat.not_le.mpr ht.token)
      cases hf : (s.handlers h).cond.fired ts.length (s.outcomes ts) with
      | true => exact ht.released hf hout
      | false =>
          refine hfree (.inr (.inr ⟨h, ?_⟩))
          rw [htkn, ht.completionTkn, hf]
          rfl
    rw [hus, List.count_append, List.count_eq_zero_of_not_mem hno]
    exact ht.scheduled

/-- A transition in which no child reports. -/
theorem moves (ht : Tally h ts out s) (hs : Sound s) (hm : Moves s s')
    (heq : s'.handlers h = s.handlers h) : Tally h ts out s' := by
  have hout := hm.outcomes hs ts
  have hpushed := hm.pushed
  refine ht.keep hm.nextToken hm.nextHandler (ht.kids.moves hm ht.handler) (hm.held out ht.token)
    ?_ (by rw [heq]) (by rw [heq, hout]; exact ht.remaining) (by rw [hout])
  obtain ⟨us, hus, hnew⟩ := hpushed
  exact ⟨us, hus, fun t hmem => (hnew t hmem).2⟩

/-- A token that is not a child is popped. -/
theorem pop (ht : Tally h ts out s) {t : TokenId} (hno : t ∉ ts) : Tally h ts out (s.pop t) := by
  have hout := State.pop_outcomes_of_notMem (s := s) hno
  exact ⟨ht.handler, ht.token, ⟨ht.kids.nodup, ht.kids.mem⟩, ht.total,
    by rw [hout]; exact ht.remaining, by rw [hout]; exact ht.completionTkn,
    by rw [hout]; exact ht.released, by rw [hout]; exact ht.scheduled⟩

/-- What is known when the child `t` reports. -/
theorem reports {t : TokenId} (ht : Tally h ts out s) (hs : Sound s) (hq : t ∈ s.queue)
    (hm : Moves (s.pop t) s') (hh : (s.tokens t).handler = some h) :
    Kids s' h ts ∧ s'.outcomes ts = s.outcomes ts ++ [(s.tokens t).eptr.isNone] ∧
      (s.outcomes ts).length < ts.length ∧
      sizeDecr (s.handlers h).remaining + (s'.outcomes ts).length = ts.length ∧
      s.fires h = (s.handlers h).cond.holds (s.handlers h).total
        (sizeDecr (ts.length - (s.outcomes ts).length)) := by
  obtain ⟨gone, own, ho⟩ := hs.owned
  have hmem : t ∈ ts := (ht.kids.mem t).mpr ⟨ho.queue_lt hq, hh⟩
  have hlt := State.outcomes_lt hs hq hmem
  have hout : s'.outcomes ts = s.outcomes ts ++ [(s.tokens t).eptr.isNone] := by
    rw [hm.outcomes (hs.pop hq), State.pop_outcomes hmem]
  have hrem : (s.handlers h).remaining = ts.length - (s.outcomes ts).length :=
    Nat.eq_sub_of_add_eq ht.remaining
  have hkids : Kids (s.pop t) h ts := ⟨ht.kids.nodup, ht.kids.mem⟩
  refine ⟨hkids.moves hm ht.handler, hout, hlt, ?_, by rw [State.fires, hrem]⟩
  rw [hrem, hout, List.length_append, List.length_singleton, sizeDecr,
    if_neg (Nat.sub_ne_zero_of_lt hlt)]
  omega

/-- The child `t` reports and the handler does not fire. -/
theorem counts {t : TokenId} (ht : Tally h ts out s) (hs : Sound s) (hq : t ∈ s.queue)
    (hm : Moves (s.pop t) s') (hh : (s.tokens t).handler = some h)
    (hno : (∃ e, (s.tokens t).eptr = some e) ∨ (s.handlers h).completionTkn = none ∨
      s.fires h = false)
    (heq : s'.handlers h =
      { s.handlers h with remaining := sizeDecr (s.handlers h).remaining }) :
    Tally h ts out s' := by
  obtain ⟨hkids, hout, hlt, hrem, hfires⟩ := ht.reports hs hq hm hh
  obtain ⟨us, hus, hnew⟩ := hm.pushed
  refine ht.keep hm.nextToken hm.nextHandler hkids (hm.held out ht.token)
    ⟨us, hus, fun t hmem => (hnew t hmem).2⟩ (by rw [heq]) (by rw [heq]; exact hrem) ?_
  rw [hout]
  cases he : (s.tokens t).eptr with
  | some e => exact Condition.fired_fail hlt
  | none =>
      rw [Option.isNone_none, Condition.fired_succeed hlt ht.total, ← hfires]
      rcases hno with ⟨e, hsome⟩ | hnone | hf
      · rw [he] at hsome
        cases hsome
      · rw [ht.completionTkn] at hnone
        cases hfired : (s.handlers h).cond.fired ts.length (s.outcomes ts) with
        | true => rfl
        | false => rw [hfired] at hnone; cases hnone
      · rw [hf, Bool.or_false]

/-- The child `t` reports and the handler fires. -/
theorem fires {t out' : TokenId} (ht : Tally h ts out s) (hs : Sound s)
    (hq : t ∈ s.queue) (hm : Moves (s.pop t) s') (hh : (s.tokens t).handler = some h)
    (he : (s.tokens t).eptr = none) (hout' : (s.handlers h).completionTkn = some out')
    (hf : s.fires h = true) (hsch : s'.scheduled = s.scheduled ++ [out'])
    (heq : s'.handlers h = { s.handlers h with
      remaining := sizeDecr (s.handlers h).remaining, completionTkn := none }) :
    Tally h ts out s' := by
  obtain ⟨hkids, hout, hlt, hrem, hfires⟩ := ht.reports hs hq hm hh
  have hnot : (s.handlers h).cond.fired ts.length (s.outcomes ts) = false ∧ out' = out := by
    rw [ht.completionTkn] at hout'
    split at hout'
    · cases hout'
    · next hfired => exact ⟨Bool.eq_false_iff.mpr hfired, (Option.some.inj hout').symm⟩
  obtain ⟨hfired, rfl⟩ := hnot
  have hfired' : (s.handlers h).cond.fired ts.length (s'.outcomes ts) = true := by
    rw [hout, he, Option.isNone_none, Condition.fired_succeed hlt ht.total, ← hfires,
      hf, Bool.or_true]
  have hfree : ¬ s'.Held out' := by
    obtain ⟨us, hus, hnew⟩ := hm.pushed
    have hlast : us = [out'] := List.append_cancel_left (hus.symm.trans hsch)
    exact (hnew out' (by simp [hlast])).2.1
  refine ⟨Nat.lt_of_lt_of_le ht.handler hm.nextHandler, Nat.lt_of_lt_of_le ht.token hm.nextToken,
    hkids, by rw [heq]; exact ht.total, by rw [heq]; exact hrem, ?_,
    fun _ => hfree, ?_⟩ <;> rw [heq]
  · simp [hfired']
  · have hcount := ht.scheduled
    rw [hfired] at hcount
    simp [hfired', hsch, hcount]

end Tally

theorem Step.tally {l : Label P} (hstep : Step s l s') (hs : Sound s) (ht : Tally h ts out s) :
    Tally h ts out s' := by
  have hm := hstep.moves hs
  cases hstep.handler hs ht.handler with
  | keeps hno heq =>
      cases l with
      | step t =>
          have hnot : t ∉ ts := fun hmem => hno t rfl ((ht.kids.mem t).mp hmem).2
          cases hstep with
          | step _ _ htop hst => exact (ht.pop hnot).moves (hs.pop htop.1) hm heq
      | _ => exact ht.moves hs hm heq
  | counts t hl hh hno heq =>
      subst hl
      cases hstep with
      | step _ _ htop hst => exact ht.counts hs htop.1 hm hh hno heq
  | fires t out' hl hh he hout hf hsch heq =>
      subst hl
      cases hstep with
      | step _ _ htop hst => exact ht.fires hs htop.1 hm hh he hout hf hsch heq

/-! ### Suspended compositions -/

/-- Only tokens that exist have been scheduled. -/
def State.Scheduled (s : State P) : Prop := ∀ t ∈ s.scheduled, t < s.nextToken

theorem Moves.scheduled_lt (hm : Moves s s') (h : s.Scheduled) : s'.Scheduled := by
  obtain ⟨us, hus, hnew⟩ := hm.pushed
  intro t ht
  rw [hus] at ht
  cases List.mem_append.mp ht with
  | inl hold => exact Nat.lt_of_lt_of_le (h t hold) hm.nextToken
  | inr hmem => exact (hnew t hmem).1

theorem Reachable.scheduled_lt {C : State P → Label P → Prop} (h : Reachable C s) :
    s.Scheduled := by
  obtain ⟨m, h⟩ := h
  have hboth : Sound s ∧ s.Scheduled := by
    refine h.invariant (I := fun s => Sound s ∧ s.Scheduled) ?_ ⟨.init m, fun t ht => by cases ht⟩
    rintro s l s' ⟨hs, hlt⟩ - hstep
    refine ⟨hstep.sound hs, (hstep.moves hs).scheduled_lt ?_⟩
    cases l <;> exact hlt
  exact hboth.2

theorem Condition.fired_nil (cond : Condition) (n : Nat) : cond.fired n [] = false := by
  cases cond <;> simp [fired]

/-- A new handler, to which as many tokens report as it waits for. -/
theorem Tally.init (hk : Kids s h ts) (hh : h < s.nextHandler)
    (hrem : (s.handlers h).remaining = ts.length) (htotal : ts.length ≤ (s.handlers h).total)
    (hout : (s.handlers h).completionTkn = some out) (hlt : out < s.nextToken)
    (hex : ∀ t ∈ s.executed, t ∉ ts) (hsch : out ∉ s.scheduled) : Tally h ts out s := by
  have hnone : s.outcomes ts = [] := by
    have hrep : s.reported ts = [] :=
      List.filter_eq_nil_iff.mpr fun t ht => by simpa using hex t ht
    rw [State.outcomes, hrep]
    rfl
  refine ⟨hh, hlt, hk, htotal, ?_, ?_, ?_, ?_⟩ <;> rw [hnone]
  · exact hrem
  · rw [Condition.fired_nil, hout]
    rfl
  · simp [Condition.fired_nil]
  · rw [Condition.fired_nil, List.count_eq_zero_of_not_mem hsch]
    rfl

/-- The handlers of the compositions that a `co_await` suspends, directly or inside
others: the tally of each starts with all its children to report. -/
theorem CoAwaits.tally {c : CoroId} {a a' : Awaitable P.User}
    {k k' : Result P.Value P.Error → P.Frame} (h : CoAwaits s c a k s') (hs : Sound s)
    (hlt : s.Scheduled) (hsus : (s'.coros c).status = .suspended a' k') {hd : HandlerId}
    (hle : s.nextHandler ≤ hd) (hhd : hd < s'.nextHandler) :
    ∃ ts out, Tally hd ts out s' ∧ (s'.handlers hd).remaining = ts.length ∧
      (s'.handlers hd).completionTkn = some out := by
  have hm := h.moves hs
  cases h with
  | continues s1 target r he =>
    simp [State.deliver, State.log, State.setStatus, State.setCoro] at hsus
  | throws a1 sm s1 target e =>
    simp [State.deliver, State.log, State.setStatus, State.setCoro] at hsus
  | suspends a1 a2 sm s1 he hnh ha hask href hr =>
      obtain ⟨hsm, hmed⟩ := hs.moves he
      have hcur : ∀ c, s.current = some c → (sm.coros c).env = .here := fun c hc =>
        hsm.started.current c ((Edits.ext (he 0)).current.trans hc)
      obtain ⟨-, hcr⟩ := awaitSuspend_spec s.current a1 sm hsm.tidy ha fun hf => hf.elim
      obtain ⟨-, -, hcr⟩ := hcr a2 s1 hr
      have hfull := (awaitSuspend_handlers s.current a1 sm hsm.tidy (.of_wired hsm.wired) ha
        hask).full
      have hm1 := (awaitSuspend_moves hsm hcur ha hask).2
      rw [hr] at hfull hm1
      have hq := Quiet.suspend s1 c a2 k
      have hlt1 : hd < s1.nextHandler := hq.nextHandler ▸ hhd
      obtain ⟨ts, hk, hrem, htotal⟩ := hfull rfl hd (hnh ▸ hle) hlt1
      obtain ⟨out, hout, hge, hlt2⟩ := hcr.output hd (hnh ▸ hle) hlt1
      have hex : ∀ t ∈ s1.executed, t ∉ ts := by
        -- executed tokens are older than the handler
        intro t hte htk
        obtain ⟨gone, own, ho⟩ := hs.owned
        have hm01 := hmed.trans hm1
        rw [hm01.executed] at hte
        have hlt0 : t < s.nextToken := ho.lt (by rw [ho.executed t hte]; simp)
        have hth := ((hk.mem t).mp htk).2
        rw [(hm01.fields t hlt0).1] at hth
        exact absurd (hs.wired.bounded t hd hth) (Nat.not_lt.mpr hle)
      have hsch : out ∉ s1.scheduled := by
        obtain ⟨us, hus, hnew⟩ := hm1.pushed
        rw [hus]
        intro hmem
        cases List.mem_append.mp hmem with
        | inl hold =>
            exact absurd (hmed.scheduled_lt hlt out hold) (Nat.not_lt.mpr hge)
        | inr hmem => exact (hnew out hmem).2.1 (.inr (.inr ⟨hd, hout⟩))
      have ht : Tally hd ts out s1 := .init hk hlt1 hrem htotal hout hlt2 hex hsch
      have hs1 : Sound s1 := by
        have h1 := (awaitSuspend_moves hsm hcur ha hask).1
        rwa [hr] at h1
      have heq : (s1.suspend c a2 k).handlers hd = s1.handlers hd := by rw [hq.handlers]
      exact ⟨ts, out, ht.moves hs1 (.same hq) heq, by rw [heq]; exact hrem, by rw [heq]; exact hout⟩

/-- The children of the composition that have reported make its waiter go on. -/
def State.Succeeds (s : State P) (ts : List TokenId) : Condition → Prop
  | .anyOf => ∃ t ∈ ts, (s.tokens t).eptr = none
  | .allOf => ∃ t, (s.reported ts).getLast? = some t ∧ (s.tokens t).eptr = none

/-- When all children have reported, the output token has been scheduled if and only if one
child of the `any_of`, or the last child of the `all_of`, has reported without an
exception. -/
theorem Tally.settled (ht : Tally h ts out s) (hall : ∀ t ∈ ts, t ∈ s.executed) :
    s.scheduled.count out = 1 ↔ s.Succeeds ts (s.handlers h).cond := by
  have hmem : ∀ t, t ∈ s.reported ts ↔ t ∈ ts := fun t => by
    simp only [State.reported, List.mem_filter, decide_eq_true_eq]
    exact and_iff_right_of_imp (hall t)
  have hlen : (s.outcomes ts).length = ts.length := by
    have hle : ts.length ≤ (s.reported ts).length :=
      List.Nodup.length_le_of_subset ht.kids.nodup fun t => (hmem t).mpr
    have hrem := ht.remaining
    rw [State.outcomes_length] at hrem ⊢
    omega
  have hfired : (s.handlers h).cond.fired ts.length (s.outcomes ts) = true ↔
      s.Succeeds ts (s.handlers h).cond := by
    cases (s.handlers h).cond with
    | anyOf => simp [Condition.fired, State.Succeeds, State.outcomes, hmem]
    | allOf =>
        simp only [Condition.fired, State.Succeeds, hlen, decide_true, Bool.true_and]
        simp only [State.outcomes, List.getLast?_map]
        cases (s.reported ts).getLast? <;> simp
  rw [← hfired, ht.scheduled]
  cases (s.handlers h).cond.fired ts.length (s.outcomes ts) <;> simp

/-- Every composition that the `co_await` of `c` suspends, in every run from then on: its
count does not underflow, its output token is scheduled at most once, and when all its
children have reported, it has been scheduled if and only if they succeed. -/
theorem compositions_settle {s1 : State P} {c : CoroId} {a : Awaitable P.User}
    {k : Result P.Value P.Error → P.Frame} {hd : HandlerId} (h : Reachable (fun _ _ => True) s)
    (hstep : Step s (.exec c) s1) (hsus : (s1.coros c).status = .suspended a k)
    (hle : s.nextHandler ≤ hd) (hlt : hd < s1.nextHandler) :
    ∃ ts out, Kids s1 hd ts ∧ (s1.handlers hd).remaining = ts.length ∧
      (s1.handlers hd).completionTkn = some out ∧
      ∀ s2, Transition.Runs Step (fun _ _ => True) s1 s2 →
        (s2.handlers hd).remaining + (s2.reported ts).length = ts.length ∧
        s2.scheduled.count out ≤ 1 ∧
        ((∀ t ∈ ts, t ∈ s2.executed) →
          (s2.scheduled.count out = 1 ↔ s2.Succeeds ts (s1.handlers hd).cond)) := by
  have hs := h.sound
  have hs1 := hstep.sound hs
  cases hstep with
  | exec _ _ hex =>
      obtain ⟨f, hrun, hact⟩ := exec_acted hex
      have hq : Quiet s (s.ran f) := .of_coros rfl
      have hsf : Sound (s.ran f) := hs.quiet hq rfl rfl rfl hs.started.current
      have hltf : (s.ran f).Scheduled := h.scheduled_lt
      have hran := hact.ran hsf.tidy False.elim
      obtain ⟨a0, hnext⟩ := hran.suspended hsus
      rw [hnext] at hact
      cases hact with
      | await =>
          obtain ⟨ts, out, ht, hrem, hout⟩ :=
            (coAwait_coAwaits hsf.tidy c a0 k).tally hsf hltf hsus hle hlt
          refine ⟨ts, out, ht.kids, hrem, hout, fun s2 hruns => ?_⟩
          obtain ⟨-, ht2, hcond⟩ : Sound s2 ∧ Tally hd ts out s2 ∧
              (s2.handlers hd).cond = (((s.ran f).coAwait c a0 k).handlers hd).cond := by
            refine hruns.invariant (I := fun s2 => Sound s2 ∧ Tally hd ts out s2 ∧
              (s2.handlers hd).cond = (((s.ran f).coAwait c a0 k).handlers hd).cond) ?_
              ⟨hs1, ht, rfl⟩
            rintro s2 l s3 ⟨hs2, ht2, hcond⟩ - hstep
            exact ⟨hstep.sound hs2, hstep.tally hs2 ht2,
              (hstep.handler hs2 ht2.handler).cond.trans hcond⟩
          refine ⟨?_, ?_, fun hall => by rw [← hcond]; exact ht2.settled hall⟩
          · rw [← State.outcomes_length]
            exact ht2.remaining
          · rw [ht2.scheduled]
            split <;> decide

/-- Process 0 awaits an `all_of` of a process that fails. -/
def failing : Program where
  User := Bool
  Body := Option Bool
  Memory := Unit
  Value := Unit
  Error := Unit
  start := some
  next b m _ := (m, match b with
    | some false => .await (.comp { cond := .allOf } [.call true {}]) fun _ => none
    | some true => .throw (.user ())
    | none => .coReturn none)

namespace failing

def bound : State failing := (State.init ()).bind (.call false {})

def started : State failing :=
  ({ bound.pop 0 with current := some 0 }.setStatus 0 (.running (.user (some false)))).log
    (.started 0 0)

def waiting : State failing := started.coAwait 0
  (.comp { cond := .allOf } [.call true {}]) fun _ => .user none

def child : State failing :=
  ({ waiting.pop 2 with current := some 1 }.setStatus 1 (.running (.user (some true)))).log
    (.started 1 0)

/-- The process has failed. Its completion token is the only child of the `all_of`. -/
def failed : State failing := (child.propagateException 1 (.user ())).doReturn 1 (.error (.user ()))

def reported : State failing := ((failed.pop 4).count 0).log (.raised (.user ()) 0)

theorem started_reachable : Reachable (fun _ _ => True) started :=
  ((Reachable.init (P := failing) ()).next trivial (.bind _ (.call false {}) rfl (by decide))).next
    trivial (.step _ 0 _ (State.isTop_singleton rfl) rfl (by decide))

theorem waiting_step : Step started (.exec 0) waiting := .exec _ _ _ rfl (by decide)

theorem waiting_suspended : ∃ a, (waiting.coros 0).status = .suspended a fun _ => .user none :=
  ⟨_, rfl⟩

theorem reported_runs : Transition.Runs Step (fun _ _ => True) waiting reported :=
  (((Transition.Runs.refl waiting).tail trivial
    (.step _ 2 child (State.isTop_singleton rfl) rfl (by decide))).tail trivial
      (.exec _ 1 failed rfl (by decide))).tail trivial
        (.step _ 4 _ (State.isTop_singleton rfl) rfl (by decide))

end failing

theorem compositions_settle_failing :
    ∃ ts out, Kids failing.waiting 0 ts ∧ (failing.waiting.handlers 0).remaining = ts.length ∧
      (failing.waiting.handlers 0).completionTkn = some out ∧
      ∀ s2, Transition.Runs Step (fun _ _ => True) failing.waiting s2 →
        (s2.handlers 0).remaining + (s2.reported ts).length = ts.length ∧
        s2.scheduled.count out ≤ 1 ∧
        ((∀ t ∈ ts, t ∈ s2.executed) →
          (s2.scheduled.count out = 1 ↔ s2.Succeeds ts (failing.waiting.handlers 0).cond)) := by
  obtain ⟨a, hsus⟩ := failing.waiting_suspended
  exact compositions_settle failing.started_reachable failing.waiting_step hsus
    (by decide) (by decide)

/-- The waiter of an `all_of` is stranded when the last child to report has failed. -/
theorem composition_strands :
    ¬ ∀ (P : Program) (s s1 s2 : State P) (c : CoroId) (a : Awaitable P.User)
      (k : Result P.Value P.Error → P.Frame) (hd : HandlerId) (ts : List TokenId) (out : TokenId),
      Reachable (fun _ _ => True) s → Step s (.exec c) s1 →
      (s1.coros c).status = .suspended a k → s.nextHandler ≤ hd → hd < s1.nextHandler →
      Kids s1 hd ts → ts ≠ [] → (s1.handlers hd).completionTkn = some out →
      Transition.Runs Step (fun _ _ => True) s1 s2 → (∀ t ∈ ts, t ∈ s2.executed) →
      s2.scheduled.count out = 1 := by
  intro h
  obtain ⟨a, hsus⟩ := failing.waiting_suspended
  have hkids : Kids failing.waiting 0 [4] := ⟨by decide, fun t => by
    constructor
    · intro ht
      rw [List.mem_singleton.mp ht]
      decide
    · rintro ⟨hlt, hh⟩
      have honly : ∀ t < 5, (failing.waiting.tokens t).handler = some 0 → t ∈ [4] := by decide
      exact honly t hlt hh⟩
  have hone := h failing _ _ failing.reported 0 a _ 0 [4] 3 failing.started_reachable
    failing.waiting_step hsus (by decide) (by decide) hkids (by decide) rfl failing.reported_runs
    (by decide)
  exact absurd hone (by decide)

end Cxxdes
