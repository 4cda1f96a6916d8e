-- SUMMARY: Ended processes hold no tokens, and every handler that has not fired has younger children that have yet to report.
import Cxxdes.Blocking.Sleepers

/-!
# Families

The children of a handler that have yet to report are counted by its field `remaining`, and its
condition does not hold for them. As they are younger than the token that the handler schedules, a
chain of handlers in handlers comes to an end.
-/

namespace Cxxdes

variable {P : Program} {s s' : State P} {c : CoroId} {h : HandlerId} {t out : TokenId}
  {ts : List TokenId} {l : Label P}

/-! ### Processes that have ended -/

def State.Emptied (s : State P) : Prop :=
  ∀ c, (s.coros c).status = .finished → (s.coros c).completionTokens = []

/-- One process changes, and it holds no tokens if it has ended. -/
theorem State.Emptied.update {d : CoroData P} (he : s.Emptied)
    (hco : s'.coros = Function.update s.coros c d)
    (hd : d.status = .finished → d.completionTokens = []) : s'.Emptied := by
  intro e hfin
  rw [hco] at hfin ⊢
  by_cases hec : e = c
  · subst hec
    rw [Function.update_self] at hfin ⊢
    exact hd hfin
  · rw [Function.update_of_ne hec] at hfin ⊢
    exact he e hfin

theorem State.Emptied.congr (he : s.Emptied) (hco : s'.coros = s.coros) : s'.Emptied := by
  intro c
  rw [hco]
  exact he c

theorem Edit.emptied {cd : Option CoroId} {n : TokenId} {nn : Prop} (he : Edit cd n nn s s')
    (hs : s.Emptied) : s'.Emptied := by
  cases he with
  | newCoro f o => exact hs.update rfl fun hd => by cases hd
  | startCoro c priority henv => exact hs.update (c := c) rfl (hs c)
  | newCompletion p cd' hcd henv hinc =>
      refine hs.update rfl fun hd => ?_
      have hfin : (s.coros p.coro).status = .finished := hd
      simp [CoroData.complete, hfin] at hinc
  | wake evt => exact hs.congr (by simp [State.wake])
  | timeout | newWaiter | newHandler | install | setObject => exact hs.congr rfl

theorem Edits.emptied {cd : Option CoroId} {n : TokenId} {nn : Prop} (he : Edits cd n nn s s')
    (hs : s.Emptied) : s'.Emptied :=
  he.invariant (I := State.Emptied) (fun _ _ hs he => he.emptied hs) hs

theorem Step.Plainly.emptied (hp : Step.Plainly s l s') (he : s.Emptied) : s'.Emptied := by
  have hs := hp.single.sound
  have hstep := hp.step
  cases hstep with
  | call f o =>
      have hedit : Edit none s.nextToken False s (s.newCoro (.user (P.start f)) o) :=
        .newCoro _ o (.user f) fun hf => hf.elim
      exact hedit.emptied he
  | bind a =>
      have hedits : Edits none s.nextToken False s (s.bind a) :=
        bind_call_edits hs.tidy a fun hf => hf.elim
      exact hedits.emptied he
  | elsewhere c henv => exact he.update (c := c) rfl (he c)
  | step t _ htop hst =>
      cases (step_stepped hst).did with
      | passes hpass => exact he.congr hpass.coros
      | starts c f _ henter | resumes c a k r _ _ henter => exact he.update henter.coros (by simp)
  | advance deadline => exact he
  | exec c _ hex =>
      obtain ⟨f, hst, hdid⟩ := exec_did hs.tidy hex fun _ _ hf => hf.elim
      have he0 : (s.ran f).Emptied := he
      cases hdid with
      | goes s1 _ g hedits hg => exact ((hedits s.nextToken).emptied he0).update hg.coros (by simp)
      | result a k s1 target r hact hedits =>
          exact ((hedits s.nextToken).emptied he0).update (Goes.deliver s1 c target k r).coros
            (by simp)
      | throws a k sm s1 e hact hthrow =>
          rw [hp.free.sequential f a k hst hact] at hthrow
          cases hthrow
      | moved o k r => exact he0.update (Goes.moved (s.ran f) c o _ _ r).coros (by simp)
      | suspends a a' k sm s1 hact hm hedits =>
          exact (hedits.emptied ((hm s.nextToken).emptied he0)).update (suspend_coros s1 c a' k)
            (by simp)
      | returns v hact =>
          obtain ⟨w, hcl, -⟩ := hp.step.closes hs ⟨f, v, rfl, hst, hact⟩
          intro e hfin
          by_cases hec : e = c
          · rw [hec, hcl.self]
          · rw [hcl.coro e hec] at hfin ⊢
            exact he e hfin
      | fails e hact => exact absurd hact (hp.free.returns c f e rfl hst)
  | reset => exact hp.free.sequential.elim

/-! ### Handlers that wait -/

/-- The children `ts` of handler `h` have yet to report, and the condition of `h` does not hold
for so many. They are younger than `out`. -/
structure State.Family (s : State P) (h : HandlerId) (out : TokenId) (ts : List TokenId) :
    Prop where
  outstanding : s.Outstanding h ts
  waits : (s.handlers h).cond.holds (s.handlers h).total (s.handlers h).remaining = false
  younger : ∀ u ∈ ts, out < u

def State.Families (s : State P) : Prop :=
  ∀ h out, (s.handlers h).completionTkn = some out → ∃ ts, s.Family h out ts

/-- Only an `any_of` of nothing waits for no child at all. -/
theorem State.Family.nonempty (hf : s.Family h out ts) :
    ts ≠ [] ∨ ((s.handlers h).cond = .anyOf ∧ (s.handlers h).total = 0) := by
  cases ts with
  | cons t ts => exact .inl (by simp)
  | nil =>
      have hwaits := hf.waits
      rw [hf.outstanding.remaining] at hwaits
      cases hcond : (s.handlers h).cond with
      | anyOf =>
          rw [hcond] at hwaits
          simp only [Condition.holds, List.length_nil, decide_eq_false_iff_not] at hwaits
          exact .inr ⟨rfl, Nat.eq_zero_of_not_pos hwaits⟩
      | allOf =>
          rw [hcond] at hwaits
          simp [Condition.holds] at hwaits

theorem bind_nextHandler_eq (s : State P) (a : Awaitable P.User) :
    (s.bind a).nextHandler = s.nextHandler := by
  unfold State.bind
  rw [detach_nextHandler_eq]
  cases a <;> rfl

/-- Only a body creates handlers. -/
theorem Step.Plainly.nextHandler (hp : Step.Plainly s l s') (hl : ∀ c, l ≠ .exec c) :
    s'.nextHandler = s.nextHandler := by
  have hstep := hp.step
  cases hstep with
  | call | elsewhere | advance => rfl
  | bind a => exact bind_nextHandler_eq s a
  | step t _ htop hst =>
      cases step_stepped hst with
      | resume c a k r s1 hh hc hst hr =>
          obtain ⟨objects, hobj, -⟩ := awaitResume_objects a { s.pop t with current := some c }
          rw [hr] at hobj
          simp only at hobj
          subst hobj
          rfl
      | start | rethrow | fire | count | raise | skip => rfl
  | exec c _ hex => exact absurd rfl (hl c)
  | reset => exact hp.free.sequential.elim

/-- The handlers of a `co_await` that suspends. -/
theorem Sleeps.family {a1 a : Awaitable P.User} {k : Result P.Value P.Error → P.Frame}
    {sm s1 : State P} (hsl : Sleeps s c a1 a k sm s1 s') (hs : Sound s)
    (hle : s.nextHandler ≤ h) (hlt : h < s'.nextHandler)
    (hout : (s'.handlers h).completionTkn = some out) : ∃ ts, s'.Family h out ts := by
  have hx := Edits.ext (hsl.edits 0)
  have hsm := hs.edits (by simp) (hsl.edits 0)
  have hb : sm.Bounded := .of_wired hsm.wired
  have hfull := (awaitSuspend_handlers s.current a1 sm hsm.tidy hb hsl.suspendable hsl.asked).full
  have hlayer := awaitSuspend_layered s.current a1 sm hsm.tidy hb hsl.suspendable hsl.asked
    hsl.refused hsl.suspends
  have hx1 := (awaitSuspend_spec s.current a1 sm hsm.tidy hsl.suspendable fun hf => hf.elim).1.ext
  rw [hsl.suspends] at hfull hx1
  have hq := Quiet.suspend s1 c a k
  rw [← hsl.nextHandler] at hle
  rw [hsl.eq, hq.nextHandler] at hlt
  rw [hsl.eq, hq.handlers] at hout
  obtain ⟨ts, hk, hrem, htotal⟩ := hfull rfl h hle hlt
  have hnew : ∀ u ∈ ts, u ∉ s1.executed := by
    -- executed tokens are older than the handler
    intro u hu hex
    obtain ⟨gone, own, ho⟩ := hsm.owned
    rw [hx1.executed] at hex
    have hold : u < sm.nextToken := ho.lt (by rw [ho.executed u hex]; simp)
    have hh := ((hk.mem u).mp hu).2
    rw [(hx1.tokenFields u hold hold).1] at hh
    exact absurd (hb u h hold hh) (Nat.not_lt.mpr hle)
  refine ⟨ts, ⟨hk.nodup, fun u => ?_, ?_, ?_⟩, ?_, fun u hu => ?_⟩
  · rw [hsl.eq, hq.nextToken, hq.tokens, hq.executed, ← and_assoc, ← hk.mem u]
    exact (and_iff_left_of_imp (hnew u)).symm
  · rw [hsl.eq, hq.handlers]
    exact hrem
  · rw [hsl.eq, hq.handlers]
    exact htotal
  · rw [hsl.eq, hq.handlers]
    exact hlayer.waits h hle hlt
  · obtain ⟨hu, hh⟩ := (hk.mem u).mp hu
    exact hlayer.below h out u hle hlt hout hu hh

theorem Step.Plainly.families (hp : Step.Plainly s l s') (hf : s.Families) : s'.Families := by
  intro h out hout
  cases Nat.lt_or_ge h s.nextHandler with
  | inl hlt =>
      cases hp.step.handler hp.single.sound hlt with
      | keeps hno heq =>
          obtain ⟨ts, hts⟩ := hf h out (by rw [← heq]; exact hout)
          exact ⟨ts, hp.outstanding_keeps hlt hts.outstanding hno heq,
            by rw [heq]; exact hts.waits, hts.younger⟩
      | counts u hl hh hno heq =>
          subst hl
          rw [heq] at hout
          obtain ⟨ts, hts⟩ := hf h out hout
          have hfires := hp.not_fires hout hno
          obtain ⟨-, -, hts'⟩ := hp.outstanding_counts hlt hts.outstanding
            (hp.outstanding_popped hts.outstanding hh) hfires heq
          exact ⟨ts.erase u, hts', by rw [heq]; exact hfires,
            fun w hw => hts.younger w (List.mem_of_mem_erase hw)⟩
      | fires u out' hl hh he hout' hfires hsch heq =>
          rw [heq] at hout
          cases hout
  | inr hge =>
      obtain ⟨gone, own, ho⟩ := (hp.step.sound hp.single.sound).owned
      have hlt' : h < s'.nextHandler := Nat.lt_of_not_le fun hle => by
        rw [ho.freshHandler h hle] at hout
        cases hout
      have hmore : s'.nextHandler ≠ s.nextHandler := fun heq =>
        absurd (heq ▸ hlt') (Nat.not_lt.mpr hge)
      cases l with
      | exec c =>
          obtain ⟨f, hst, hcases⟩ := hp.sleeps
          cases hcases with
          | inl hruns => exact absurd hruns.1 hmore
          | inr hsl =>
              obtain ⟨a1, a, k, sm, s1, hsl⟩ := hsl
              have hs0 : Sound (s.ran f) := hp.single.sound.quiet (.of_coros rfl) rfl rfl rfl
                hp.single.sound.started.current
              exact hsl.family hs0 hge hlt' hout
      | _ => exact absurd (hp.nextHandler (by simp)) hmore

end Cxxdes
