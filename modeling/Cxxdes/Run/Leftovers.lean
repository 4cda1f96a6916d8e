-- SUMMARY: What a composition whose await_suspend throws leaves behind, and when the awaiting process can still be resumed by it.
import Cxxdes.Run.Compositions
import Cxxdes.Run.Isolation
import Cxxdes.Run.Replay

/-!
# Failed awaits

`await_suspend` of a composition throws when a child handle is already being awaited.
Nothing is taken back: the handlers on the way to that child keep their output tokens
and the children that were suspended before. An `all_of` among them waits for more
children than report to it and never fires. An `any_of` fires as soon as one child
reports, and its output token resumes a process that waits for something else by then.
-/

namespace Cxxdes

variable {P : Program} {s s' s1 s2 : State P} {h : HandlerId} {ts : List TokenId} {t : TokenId}

/-! ### Handlers that never fire -/

/-- `t` is the output token of handler `h` with the children `ts`, of which there are
none (`any_of`) or fewer than the handler still waits for (`all_of`). -/
structure Stalled (h : HandlerId) (ts : List TokenId) (t : TokenId) (s : State P) : Prop where
  handler : h < s.nextHandler
  kids : Kids s h ts
  completionTkn : (s.handlers h).completionTkn = some t
  stalls : match (s.handlers h).cond with
    | .anyOf => ts = []
    | .allOf => ts.length < (s.handlers h).remaining + (s.outcomes ts).length

namespace Stalled

theorem of_stuck (hs : s.Stuck t) : ∃ h ts, Stalled h ts t s := by
  obtain ⟨h, ts, hh, hout, hk, hst⟩ := hs
  refine ⟨h, ts, hh, hk, hout, ?_⟩
  unfold Handler.Stalls at hst
  cases hc : (s.handlers h).cond with
  | anyOf => rw [hc] at hst; exact hst
  | allOf => rw [hc] at hst; exact Nat.lt_of_lt_of_le hst (Nat.le_add_right _ _)

/-- The output token is held by its handler. -/
theorem held (hst : Stalled h ts t s) : s.Held t := .inr (.inr ⟨h, hst.completionTkn⟩)

theorem notMem (hst : Stalled h ts t s) (hs : Sound s) : t ∉ s.queue := by
  obtain ⟨gone, own, ho⟩ := hs.owned
  exact fun hq => ho.queue_notHeld hq hst.held

/-- The handler keeps its output token while it counts as many children as report. -/
theorem keep (hst : Stalled h ts t s) (hnh : s.nextHandler ≤ s'.nextHandler)
    (hk : Kids s' h ts)
    (heq : s'.handlers h = { s.handlers h with remaining := (s'.handlers h).remaining })
    (hle : (s.handlers h).cond = .allOf → ts.length < (s'.handlers h).remaining +
      (s'.outcomes ts).length) : Stalled h ts t s' := by
  have hcond : (s'.handlers h).cond = (s.handlers h).cond := by rw [heq]
  have htkn : (s'.handlers h).completionTkn = (s.handlers h).completionTkn := by rw [heq]
  have hold := hst.stalls
  refine ⟨Nat.lt_of_lt_of_le hst.handler hnh, hk, htkn.trans hst.completionTkn, ?_⟩
  rw [hcond]
  cases hc : (s.handlers h).cond with
  | anyOf => rw [hc] at hold; exact hold
  | allOf => exact hle hc

/-- A transition in which no child reports. -/
theorem moves (hst : Stalled h ts t s) (hs : Sound s) (hm : Moves s s')
    (heq : s'.handlers h = s.handlers h) : Stalled h ts t s' := by
  refine hst.keep hm.nextHandler (hst.kids.moves hm hst.handler) (by rw [heq]) fun hc => ?_
  have hold := hst.stalls
  rw [hc] at hold
  rw [heq, hm.outcomes hs]
  exact hold

theorem pop (hst : Stalled h ts t s) {u : TokenId} (hno : u ∉ ts) : Stalled h ts t (s.pop u) := by
  refine ⟨hst.handler, ⟨hst.kids.nodup, hst.kids.mem⟩, hst.completionTkn, ?_⟩
  rw [State.pop_outcomes_of_notMem hno]
  exact hst.stalls

/-- A child is among `ts`, so the handler is an `all_of` that waits for at least two more. -/
theorem reports (hst : Stalled h ts t s) (hs : Sound s) {u : TokenId} (hq : u ∈ s.queue)
    (hh : (s.tokens u).handler = some h) :
    u ∈ ts ∧ (s.handlers h).cond = .allOf ∧ 2 ≤ (s.handlers h).remaining ∧
      ts.length < (s.handlers h).remaining + (s.outcomes ts).length := by
  obtain ⟨gone, own, ho⟩ := hs.owned
  have hmem : u ∈ ts := (hst.kids.mem u).mpr ⟨ho.queue_lt hq, hh⟩
  have hlt := State.outcomes_lt hs hq hmem
  have hold := hst.stalls
  cases hc : (s.handlers h).cond with
  | anyOf =>
      rw [hc] at hold
      rw [show ts = [] from hold] at hmem
      cases hmem
  | allOf =>
      rw [hc] at hold
      exact ⟨hmem, rfl, by omega, hold⟩

/-- A child reports. -/
theorem counts (hst : Stalled h ts t s) (hs : Sound s) {u : TokenId} (hq : u ∈ s.queue)
    (hm : Moves (s.pop u) s') (hh : (s.tokens u).handler = some h)
    (heq : s'.handlers h = { s.handlers h with remaining := sizeDecr (s.handlers h).remaining }) :
    Stalled h ts t s' := by
  obtain ⟨hmem, -, htwo, hlt⟩ := hst.reports hs hq hh
  have hk : Kids (s.pop u) h ts := ⟨hst.kids.nodup, hst.kids.mem⟩
  have hrem : (s'.handlers h).remaining = (s.handlers h).remaining - 1 := by
    rw [heq]
    exact if_neg (by omega)
  have hlen : (s'.outcomes ts).length = (s.outcomes ts).length + 1 := by
    rw [hm.outcomes (hs.pop hq), State.pop_outcomes hmem, List.length_append, List.length_singleton]
  refine hst.keep hm.nextHandler (hk.moves hm hst.handler) (by rw [heq]) fun _ => ?_
  omega

/-- It does not make the handler fire. -/
theorem not_fires (hst : Stalled h ts t s) (hs : Sound s) {u : TokenId} (hq : u ∈ s.queue)
    (hh : (s.tokens u).handler = some h) : s.fires h = false := by
  obtain ⟨-, hc, htwo, -⟩ := hst.reports hs hq hh
  have hne : (s.handlers h).remaining ≠ 0 := by omega
  have hdecr : sizeDecr (s.handlers h).remaining ≠ 0 := by
    rw [sizeDecr, if_neg hne]
    omega
  rw [State.fires, hc]
  exact decide_eq_false hdecr

end Stalled

/-- A handler that never fires keeps its output token, whatever happens. -/
theorem Step.stalled {l : Label P} (hstep : Step s l s') (hs : Sound s) (hst : Stalled h ts t s) :
    Stalled h ts t s' := by
  have hm := hstep.moves hs
  cases hstep.handler hs hst.handler with
  | keeps hno heq =>
      cases l with
      | step u =>
          have hnot : u ∉ ts := fun hmem => hno u rfl ((hst.kids.mem u).mp hmem).2
          cases hstep with
          | step _ _ htop hex => exact (hst.pop hnot).moves (hs.pop htop.1) hm heq
      | _ => exact hst.moves hs hm heq
  | counts u hl hh hno heq =>
      subst hl
      cases hstep with
      | step _ _ htop hex => exact hst.counts hs htop.1 hm hh heq
  | fires u out hl hh he hout hf =>
      subst hl
      cases hstep with
      | step _ _ htop hex =>
          rw [hst.not_fires hs htop.1 hh] at hf
          cases hf

theorem Stalled.runs {C : State P → Label P → Prop} (hst : Stalled h ts t s) (hs : Sound s)
    (hr : Transition.Runs Step C s s') : Sound s' ∧ Stalled h ts t s' := by
  refine hr.invariant (I := fun s => Sound s ∧ Stalled h ts t s) ?_ ⟨hs, hst⟩
  rintro s l s' ⟨hs, hst⟩ - hstep
  exact ⟨hstep.sound hs, hstep.stalled hs hst⟩

/-- Tokens keep their wiring. -/
theorem runs_fields {C : State P → Label P → Prop} (hr : Transition.Runs Step C s s')
    (hs : Sound s) (ht : t < s.nextToken) :
    Sound s' ∧ t < s'.nextToken ∧ (s'.tokens t).handler = (s.tokens t).handler ∧
      (s'.tokens t).coroData = (s.tokens t).coroData := by
  refine hr.invariant (I := fun s' => Sound s' ∧ t < s'.nextToken ∧
    (s'.tokens t).handler = (s.tokens t).handler ∧
      (s'.tokens t).coroData = (s.tokens t).coroData) ?_ ⟨hs, ht, rfl, rfl⟩
  rintro s1 l s2 ⟨hs1, hlt, hh, hcd⟩ - hstep
  have hm := hstep.moves hs1
  have hlt' : t < (s1.popped l).nextToken := by cases l <;> exact hlt
  obtain ⟨h1, h2⟩ := hm.fields t hlt'
  have hsame : (s1.popped l).tokens t = s1.tokens t := by cases l <;> rfl
  rw [hsame] at h1 h2
  exact ⟨hstep.sound hs1, Nat.lt_of_lt_of_le hlt' hm.nextToken, h1.trans hh, h2.trans hcd⟩

/-! ### Failed awaits -/

/-- After a failed `await_suspend` the body runs on with the exception. -/
theorem coAwait_running {c : CoroId} {a : Awaitable P.User}
    (k : Result P.Value P.Error → P.Frame) (h : s.suspendThrows c a = true) :
    ∃ f, ((s.coAwait c a k).coros c).status = .running f := by
  have hdeliver : ∀ (s : State P) (target : Option CoroId) (r : Result P.Value P.Error),
      ((s.deliver c target k r).coros c).status = .running (k r) := fun s target r => by
    simp [State.deliver, State.log, State.setStatus, State.setCoro]
  generalize hco : s.coAwait c a k = s'
  have haw := coAwait_awaits s c a k
  rw [hco] at haw
  cases haw with
  | unbound e s1 hb => exact ⟨_, hdeliver s1 _ _⟩
  | ready a1 a2 s1 s2 s3 r => exact ⟨_, hdeliver s3 _ _⟩
  | throws a1 a2 s1 s2 s3 e => exact ⟨_, hdeliver s3 _ _⟩
  | suspends a1 a2 a3 s1 s2 s3 hb hr hsus =>
      unfold State.suspendThrows at h
      simp only [hb, hr, hsus] at h
      cases h

/-- A token that a failed `co_await` of `c` creates resumes another process, reports to a
handler, or is the output token of a handler that never fires. -/
theorem CoAwaits.leaves {c : CoroId} {f : P.Frame} {a : Awaitable P.User}
    {k : Result P.Value P.Error → P.Frame} (h : CoAwaits s c a k s') (hs : Sound s)
    (hst : (s.coros c).status = .running f) (hrun : ∃ g, (s'.coros c).status = .running g)
    (hharm : s.harmless c a = true) (hle : s.nextToken ≤ t) (hlt : t < s'.nextToken)
    (hfree : (s'.tokens t).handler = none) (hcd : (s'.tokens t).coroData = some c) :
    ∃ h ts, Stalled h ts t s' := by
  -- binding creates tokens for other processes only
  have hbind : ∀ {sm : State P}, Edits none s.nextToken False s sm → t < sm.nextToken →
      (sm.tokens t).coroData = some c → False := by
    intro sm he hltm hcdm
    have hlt0 : c < s.nextCoro := hs.tidy.fresh.lt_of_status (by simp [hst])
    have hstm : (sm.coros c).status = .running f := (he.ext.coro c hlt0).status.trans hst
    rcases he.named hs (by simp) hle hltm with hn | hn | ⟨c', g, hn, -, -, -, hg⟩
    · rw [hn] at hcdm; cases hcdm
    · rw [hn] at hcdm; cases hcdm
    · obtain rfl : c' = c := Option.some.inj (hn.symm.trans hcdm)
      rw [hstm] at hg
      cases hg
  cases h with
  | continues s1 target r he =>
      have hq := Quiet.deliver s1 c target k r
      rw [hq.nextToken] at hlt
      rw [hq.tokens] at hcd
      exact (hbind (he s.nextToken) hlt hcd).elim
  | throws a' sm s1 target e hm hnh ha hask hthrows hh hr =>
      have hq := Quiet.deliver s1 c target k (.error e)
      have hlt1 : t < s1.nextToken := hq.nextToken ▸ hlt
      rw [hq.tokens] at hfree hcd
      obtain ⟨hsm, -⟩ := hs.moves hm
      have hcur : ∀ c, s.current = some c → (sm.coros c).env = .here := fun c hc =>
        hsm.started.current c ((Edits.ext (hm 0)).current.trans hc)
      obtain ⟨hs1, hm1⟩ := awaitSuspend_moves hsm hcur ha hask
      have hsus := (awaitSuspend_handlers s.current a' sm hsm.tidy
        (.of_wired hsm.wired) ha hask).stuck
      rw [hr] at hs1 hm1 hsus
      rw [hh] at hharm
      cases Nat.lt_or_ge t sm.nextToken with
      | inl hltm =>
          rw [(hm1.fields t hltm).2] at hcd
          exact (hbind (hm s.nextToken) hltm hcd).elim
      | inr hge =>
          obtain ⟨hd, ts, hstall⟩ := Stalled.of_stuck (hsus rfl hharm t hge hlt1 hfree)
          exact ⟨hd, ts, hstall.moves hs1 (.same hq) (by rw [hq.handlers])⟩
  | suspends a1 a' sm s1 hm hnh ha hask href hr =>
      obtain ⟨g, hg⟩ := hrun
      rw [suspend_coros, Function.update_self] at hg
      cases hg

/-- The same for a transition in which the body of `c` does the `co_await`. -/
theorem Step.leaves {c : CoroId} {f : P.Frame} {a : Awaitable P.User}
    {k : Result P.Value P.Error → P.Frame} (hstep : Step s (.exec c) s') (hs : Sound s)
    (hst : (s.coros c).status = .running f) (hact : s.next f = .await a k)
    (hthrow : (s.ran f).suspendThrows c a = true) (hharm : (s.ran f).harmless c a = true)
    (hle : s.nextToken ≤ t) (hlt : t < s'.nextToken) (hfree : (s'.tokens t).handler = none)
    (hcd : (s'.tokens t).coroData = some c) : ∃ h ts, Stalled h ts t s' := by
  cases hstep with
  | exec _ _ hex =>
      obtain ⟨f', hst', hacted⟩ := exec_acted hex
      obtain rfl : f' = f := Status.running.inj (hst'.symm.trans hst)
      have hsf : Sound (s.ran f') :=
        hs.quiet (.of_coros rfl) rfl rfl rfl hs.started.current
      rw [hact] at hacted
      cases hacted with
      | await =>
          exact (coAwait_coAwaits hsf.tidy c a k).leaves hsf hst (coAwait_running k hthrow) hharm
            hle hlt hfree hcd

/-! ### Processes that have ended -/

/-- A process that has ended is not started again. -/
theorem Step.ended {l : Label P} (hstep : Step s l s') (hs : s.Tidy False) {c : CoroId}
    (hc : c < s.nextCoro) (hfin : (s.coros c).status = .finished) :
    (s'.coros c).status = .finished := by
  cases hstep with
  | call f o => simp [State.newCoro, Function.update_of_ne (Nat.ne_of_lt hc), hfin]
  | bind a =>
      have he : Edits none 0 False s (s.bind a) := bind_call_edits hs a fun hf => hf.elim
      exact (he.ext.coro c hc).status.trans hfin
  | elsewhere c' henv =>
      by_cases hcc : c = c'
      · subst hcc; simp [State.setCoro, hfin]
      · simp [State.setCoro, Function.update_of_ne hcc, hfin]
  | step t _ htop hst =>
      cases step_stepped hst with
      | start c' f hh hc' hst' =>
          have hne : c ≠ c' := by rintro rfl; rw [hfin] at hst'; cases hst'
          simp [State.log, State.setStatus, State.setCoro, State.pop, Function.update_of_ne hne,
            hfin]
      | resume c' a k r s1 hh hc' hst' hr =>
          have hne : c ≠ c' := by rintro rfl; rw [hfin] at hst'; cases hst'
          have he : Edits none 0 False { s.pop t with current := some c' } s1 :=
            awaitResume_edits_of hr
          have h1 : (s1.coros c).status = .finished := (he.ext.coro c hc).status.trans hfin
          simp [State.deliver, State.log, State.setStatus, State.setCoro,
            Function.update_of_ne hne, h1]
      | rethrow | fire | count | raise | skip => exact hfin
  | advance deadline => exact hfin
  | exec c' _ hex =>
      obtain ⟨f, hst, hran⟩ := exec_ran hs hex fun _ _ hf => hf.elim
      have hne : c ≠ c' := by rintro rfl; rw [hfin] at hst; cases hst
      exact (hran.others.status c hne hc).trans hfin
  | reset =>
      unfold State.reset
      rw [State.destroyAll_eq]
      by_cases hm : c ∈ s.managed <;> simp [hm, hfin]

/-! ### Runs -/

/-- The steps of a run in which `step()` is not called by a body, and in which a
composition whose `await_suspend` throws leaves no handler that can fire. -/
def Cautious (s : State P) : Label P → Prop
  | .step _ => s.current = none
  | .exec c => ∀ f a k, (s.coros c).status = .running f → s.next f = .await a k →
      (s.ran f).suspendThrows c a = true → (s.ran f).harmless c a = true
  | _ => True

/-- `t` does not resume `c` any more: `c` has ended, or `t` is never scheduled. -/
def State.Past (s : State P) (c : CoroId) (t : TokenId) : Prop :=
  (t < s.nextToken ∧ (s.tokens t).coroData = some c ∧ (s.coros c).status = .finished) ∨
    ∃ h ts, Stalled h ts t s

theorem Step.past {l : Label P} (hstep : Step s l s') (hs : Sound s) {c : CoroId}
    (hp : s.Past c t) : s'.Past c t := by
  cases hp with
  | inl hfin =>
      obtain ⟨hlt, hcd, hfin⟩ := hfin
      have hc : c < s.nextCoro :=
        hs.tidy.fresh.lt (by rw [hs.started.token t c hcd]; simp)
      have hlt' : t < (s.popped l).nextToken := by cases l <;> exact hlt
      have hcd' : ((s.popped l).tokens t).coroData = some c := by cases l <;> exact hcd
      have hm := hstep.moves hs
      exact .inl ⟨Nat.lt_of_lt_of_le hlt' hm.nextToken, (hm.fields t hlt').2.trans hcd',
        hstep.ended hs.tidy hc hfin⟩
  | inr hst =>
      obtain ⟨i, ts, hst⟩ := hst
      exact .inr ⟨i, ts, hstep.stalled hs hst⟩

theorem Step.cautious {l : Label P} (hstep : Step s l s') (hl : Cautious s l)
    (h : SingleBut s.Past s) : SingleBut s'.Past s' := by
  have hs := h.sound
  refine hstep.singleBut h ?_ (fun c t hp => hstep.past hs hp) ?_ ?_
  · rintro t rfl
    refine ⟨hl, fun c hp _ _ => ?_⟩
    cases hp with
    | inl hfin => exact hfin.2.2
    | inr hst =>
        obtain ⟨i, ts, hst⟩ := hst
        cases hstep with
        | step _ _ htop hex => exact absurd htop.1 (hst.notMem hs)
  · rintro c f a k rfl hst hact hthrow t hle hsrc
    obtain ⟨gone, own, ho⟩ := (hstep.sound hs).owned
    exact .inr (hstep.leaves hs hst hact hthrow (hl f a k hst hact hthrow) hle
      (ho.live_lt hsrc.1) hsrc.2.1 hsrc.2.2)
  · rintro rfl c t hsrc hfin
    obtain ⟨gone, own, ho⟩ := hs.owned
    have hm := hstep.moves hs
    have hlt := ho.live_lt hsrc.1
    exact .inl ⟨Nat.lt_of_lt_of_le hlt hm.nextToken, (hm.fields t hlt).2.trans hsrc.2.2, hfin⟩

theorem Reachable.cautious (h : Reachable Cautious s) : SingleBut s.Past s := by
  obtain ⟨m, h⟩ := h
  refine h.invariant (I := fun s => SingleBut s.Past s)
    (fun s l s' hs hc hstep => hstep.cautious hc hs) ?_
  have h0 := single_iff.mp (Single.init (P := P) m)
  exact ⟨h0.sound, fun c t _ => h0.sources c t id, h0.running⟩

/-- A pending token that names a process that has not ended answers its state. -/
theorem SingleBut.answers {c : CoroId} (h : SingleBut s.Past s) (hq : t ∈ s.queue)
    (hfree : (s.tokens t).handler = none) (hcd : (s.tokens t).coroData = some c)
    (hst : (s.coros c).status ≠ .finished) : s.Answers c t := by
  have hno : ¬ s.Past c t := by
    rintro (hfin | ⟨i, ts, hstall⟩)
    · exact hst hfin.2.2
    · exact hstall.notMem h.sound hq
  exact h.sources c t hno (by simp) ⟨.inl hq, hfree, hcd⟩

/-- In runs in which all failed awaits are such, what resumes a suspended process is the
token of the awaitable that it is suspended in. -/
theorem Reachable.answers {c : CoroId} {a : Awaitable P.User}
    {k : Result P.Value P.Error → P.Frame} (h : Reachable Cautious s)
    (hsus : (s.coros c).status = .suspended a k) (hq : t ∈ s.queue)
    (hres : s.resumes t = some c) : a.token = some t := by
  obtain ⟨hfree, hcd⟩ := resumes_eq_some.mp hres
  have ha := h.cautious.answers hq hfree hcd (by simp [hsus])
  simpa only [State.Answers, hsus] using ha

/-- A `co_await` of `c` whose `await_suspend` throws, where no `any_of` on the way to the
child that throws has suspended another child before: none of its tokens resumes `c` in any
later run. In runs in which all failed awaits are such, what resumes a suspended process is
the token of the awaitable that it is suspended in. -/
theorem failed_suspend_leaves_nothing {c : CoroId} {f : P.Frame} {a : Awaitable P.User}
    {k : Result P.Value P.Error → P.Frame} (h : Reachable (fun _ _ => True) s)
    (hstep : Step s (.exec c) s1) (hst : (s.coros c).status = .running f)
    (hact : s.next f = .await a k) (hthrow : (s.ran f).suspendThrows c a = true)
    (hharm : (s.ran f).harmless c a = true)
    (hruns : Transition.Runs Step (fun _ _ => True) s1 s2) :
    (∀ t, s.nextToken ≤ t → t < s1.nextToken → t ∈ s2.queue → s2.resumes t ≠ some c) ∧
    (Reachable Cautious s2 → ∀ c a k t, (s2.coros c).status = .suspended a k → t ∈ s2.queue →
      s2.resumes t = some c → a.token = some t) := by
  have hs := h.sound
  have hs1 := hstep.sound hs
  refine ⟨fun t hle hlt hq hres => ?_, fun hc c a k t hsus hq hres => ?_⟩
  · obtain ⟨hfree, hcd⟩ := resumes_eq_some.mp hres
    obtain ⟨hs2, -, hfields⟩ := runs_fields hruns hs1 hlt
    obtain ⟨i, ts, hstall⟩ := hstep.leaves hs hst hact hthrow hharm hle hlt
      (hfields.1.symm.trans hfree) (hfields.2.symm.trans hcd)
    exact (hstall.runs hs1 hruns).2.notMem hs2 hq
  · exact hc.answers hsus hq hres

/-- The states of the bodies of `twice`. -/
inductive Twice where
  | begins (cond : Condition)
  | holds (cond : Condition) (p : Handle)
  | awaits (cond : Condition) (h : HandleId)
  | caught
  | child
  | over

/-- A process that awaits `any_of(p, p)` or `all_of(p, p)`, where `p` takes 5, catches the
exception of the second child, and delays 100. -/
def twice : Program where
  User := Option Condition
  Body := Twice
  Memory := Unit
  Value := Unit
  Error := Unit
  start
    | some cond => .begins cond
    | none => .child
  next b m _ := (m, match b with
    | .begins cond => .create none {} fun p => .holds cond p
    | .holds cond p => .declare p fun h => .awaits cond h
    | .awaits cond h => .await (.comp { cond := cond } [.ref h, .ref h]) fun _ => .caught
    | .caught => .await (.timeout true 100 PriorityConsts.inherit none) fun _ => .over
    | .child => .await (.timeout true 5 PriorityConsts.inherit none) fun _ => .over
    | .over => .coReturn none)

namespace twice

/-- Process 0 is about to await the composition. -/
def ready (cond : Condition) : State twice :=
  (State.init ()).after (fun _ _ => true)
    [.bind (.call (some cond) {}), .step 0, .exec 0, .exec 0]

/-- Its second child has thrown. -/
def failed (cond : Condition) : State twice := ((ready cond).move (.exec 0)).getD (ready cond)

/-- Process 0 delays until 100, process 1 has ended at 5, and its completion token has been
executed. -/
def later (cond : Condition) : State twice :=
  (failed cond).after (fun _ _ => true)
    [.exec 0, .step 2, .exec 1, .step 6, .exec 1, .step 4]

theorem ready_reachable (cond : Condition) : Reachable (fun _ _ => True) (ready cond) :=
  .after (fun _ _ _ => trivial) _ _

theorem failed_step (cond : Condition) : Step (ready cond) (.exec 0) (failed cond) :=
  State.moved (by cases cond <;> decide +kernel)

theorem later_runs (cond : Condition) :
    Transition.Runs Step (fun _ _ => True) (failed cond) (later cond) :=
  State.after_runs (fun _ _ _ => trivial) _ _

theorem ready_status (cond : Condition) :
    ((ready cond).coros 0).status = .running (.user (.awaits cond 0)) := by
  cases cond <;> rfl

end twice

theorem failed_suspend_leaves_nothing_twice :
    (∀ t, (twice.ready .allOf).nextToken ≤ t → t < (twice.failed .allOf).nextToken →
      t ∈ (twice.later .allOf).queue → (twice.later .allOf).resumes t ≠ some 0) ∧
    (Reachable Cautious (twice.later .allOf) → ∀ c a k t,
      ((twice.later .allOf).coros c).status = .suspended a k → t ∈ (twice.later .allOf).queue →
      (twice.later .allOf).resumes t = some c → a.token = some t) :=
  failed_suspend_leaves_nothing (twice.ready_reachable .allOf) (twice.failed_step .allOf)
    (twice.ready_status .allOf) rfl (by decide +kernel) (by decide +kernel)
    (twice.later_runs .allOf)

/-- An `any_of` that has thrown resumes its process from another await. -/
theorem failed_any_of_resumes :
    ¬ ∀ (P : Program) (s s1 s2 : State P) (c : CoroId) (f : P.Frame) (a : Awaitable P.User)
      (k : Result P.Value P.Error → P.Frame) (t : TokenId),
      Reachable (fun _ _ => True) s → Step s (.exec c) s1 → (s.coros c).status = .running f →
      s.next f = .await a k → (s.ran f).suspendThrows c a = true →
      Transition.Runs Step (fun _ _ => True) s1 s2 → s.nextToken ≤ t → t < s1.nextToken →
      t ∈ s2.queue → s2.resumes t ≠ some c := by
  intro h
  -- token 3, the output token of the handler, is scheduled at 5
  have hno := h twice _ _ (twice.later .anyOf) 0 _ _ _ 3 (twice.ready_reachable .anyOf)
    (twice.failed_step .anyOf) (twice.ready_status .anyOf) rfl (by decide +kernel)
    (twice.later_runs .anyOf) (by decide +kernel) (by decide +kernel) (by decide +kernel)
  exact hno (by decide +kernel)

end Cxxdes
