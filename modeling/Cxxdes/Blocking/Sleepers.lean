-- SUMMARY: In every run without exceptions: what a suspended process, a bound process and a handler still have ahead of them.
import Cxxdes.Blocking.Nested
import Cxxdes.Timing.Steps

/-!
# Processes and handlers that wait

A suspended process has a token that will resume it and has not been executed, a process that has
been bound has a pending start token until it begins, a process that has ended holds no tokens, and
a handler that has not fired has children that have yet to report.
-/

namespace Cxxdes

variable {P : Program} {s s' : State P} {c : CoroId} {t u : TokenId} {l : Label P}

/-! ### A co_await that suspends -/

/-- What is known when `await_suspend` returns and the process is suspended. -/
structure Sleeps (s : State P) (c : CoroId) (a1 a : Awaitable P.User)
    (k : Result P.Value P.Error → P.Frame) (sm s1 s' : State P) : Prop where
  edits : ∀ n, Edits none n False s sm
  nextHandler : sm.nextHandler = s.nextHandler
  suspendable : Suspendable sm a1
  asked : a1.Asked
  refused : a1.Refused
  isRef : a1.isRef = false
  suspends : awaitSuspend s.current a1 sm = (.ok a, s1)
  eq : s' = s1.suspend c a k

theorem coAwait_sleeps (hs : s.Tidy False) {a0 : Awaitable P.User}
    (k : Result P.Value P.Error → P.Frame) (hthrow : s.suspendThrows c a0 = false) :
    ((s.coAwait c a0 k).nextHandler = s.nextHandler ∧
      ∃ g, ((s.coAwait c a0 k).coros c).status = .running g) ∨
    ∃ a1 a sm s1, Sleeps s c a1 a k sm s1 (s.coAwait c a0 k) := by
  have hno : False → (a0.wrap s).NonNeg := fun hf => hf.elim
  have hnh := awaitBind_nextHandler (s.coros c).priority (a0.wrap s) s
  have hrun : ∀ {sx : State P} {target : Option CoroId} {r : Result P.Value P.Error},
      sx.nextHandler = s.nextHandler → (sx.deliver c target k r).nextHandler = s.nextHandler ∧
        ∃ g, ((sx.deliver c target k r).coros c).status = .running g := fun {sx target r} heq =>
    ⟨(Quiet.deliver sx c target k r).nextHandler.trans heq, k r, by
      simp [State.deliver, State.log, State.setStatus, State.setCoro]⟩
  have haw := coAwait_awaits s c a0 k
  generalize s.coAwait c a0 k = s' at haw ⊢
  cases haw with
  | unbound e s1 hb =>
      rw [hb] at hnh
      exact .inl (hrun hnh)
  | ready a1 a2 s1 s2 s3 r hb hr hres =>
      have hnh2 := awaitReady_nextHandler a1 s1
      obtain ⟨objects, hobj, -⟩ := awaitResume_objects a2 s2
      rw [hb] at hnh
      rw [hr] at hnh2
      rw [hres] at hobj
      simp only at hobj
      subst hobj
      exact .inl (hrun (hnh2.trans hnh))
  | throws a1 a2 s1 s2 s3 e hb hr hsus =>
      rw [Awaits.suspendThrows hb hr hsus] at hthrow
      cases hthrow
  | suspends a1 a2 a3 s1 s2 s3 hb hr hok =>
      have hbind : ∀ n, Edits none n False s (awaitBind (s.coros c).priority (a0.wrap s) s).2 :=
        fun n => awaitBind_edits (s.coros c).priority (a0.wrap s) s hs hno
      have hready : ∀ n, Edits none n False s1 (awaitReady a1 s1).2.2 := fun n =>
        awaitReady_edits a1 s1
      have hsusp := awaitReady_suspendable (awaitBind_bound hs hno hb).1
      have hask := awaitReady_asked a1 s1
      have hrefused := awaitReady_refused a1 s1
      have href := awaitReady_isRef s1 (awaitBind_isRef (wrap_isRef s a0) hb)
      have hnh2 := awaitReady_nextHandler a1 s1
      rw [hb] at hbind hnh
      rw [hr] at hready hsusp hask hrefused href hnh2
      have he := fun n => (hbind n).trans (hready n)
      have hcur : s2.current = s.current := (Edits.ext (he 0)).current
      rw [hcur] at hok
      exact .inr ⟨a2, a3, s2, s3,
        he, hnh2.trans hnh, hsusp rfl, hask, hrefused rfl, href, hok, rfl⟩

theorem detach_nextHandler_eq (s : State P) (p : Handle) (priority : Int) :
    (s.detach p priority).2.nextHandler = s.nextHandler := by
  unfold State.detach State.bind_
  cases (s.coros p.coro).env with
  | elsewhere => rfl
  | here =>
      simp only
      split <;> rfl
  | unbound =>
      simp only
      split <;> rfl

/-- A body that is executed suspends its process, or no handler is created. -/
theorem Step.Plainly.sleeps (h : Step.Plainly s (.exec c) s') :
    ∃ f, (s.coros c).status = .running f ∧
      ((s'.nextHandler = s.nextHandler ∧ ∀ a k, (s'.coros c).status ≠ .suspended a k) ∨
        ∃ a1 a k sm s1, Sleeps (s.ran f) c a1 a k sm s1 s') := by
  have hstep := h.step
  cases hstep with
  | exec _ _ hex =>
      obtain ⟨f, hst, hact⟩ := exec_acted hex
      refine ⟨f, hst, ?_⟩
      have hs0 : Sound (s.ran f) := h.single.sound.quiet (.of_coros rfl) rfl rfl rfl
        h.single.sound.started.current
      generalize hnext : s.next f = act at hact
      cases hact with
      | tau | create | declare | move =>
          refine .inl ⟨rfl, fun a k => ?_⟩
          simp [State.setStatus, State.setCoro]
      | moved =>
          refine .inl ⟨rfl, fun a k => ?_⟩
          simp [State.deliver, State.log, State.setStatus, State.setCoro]
      | await a0 k =>
          cases coAwait_sleeps hs0.tidy k (h.free.sequential f a0 k hst hnext) with
          | inl hruns =>
              obtain ⟨hnh, g, hg⟩ := hruns
              exact .inl ⟨hnh, fun a k' => by simp [hg]⟩
          | inr hsl =>
              obtain ⟨a1, a, sm, s1, hsl⟩ := hsl
              exact .inr ⟨a1, a, k, sm, s1, hsl⟩
      | bind p k s1 hb | bindError p k e s1 hb =>
          have hnh := detach_nextHandler_eq (s.ran f) p 0
          rw [hb] at hnh
          refine .inl ⟨hnh, fun a k' => ?_⟩
          simp [State.setStatus, State.setCoro]
      | returns v =>
          refine .inl ⟨by simp [State.doReturn_eq, State.setCoro, State.ran], fun a k => ?_⟩
          simp [State.doReturn_eq, State.setCoro]
      | fails e => exact absurd hnext (h.free.returns c f e rfl hst)

/-! ### Suspended processes -/

/-- The token will resume `c`, and has not been executed. -/
structure State.Wakes (s : State P) (c : CoroId) (t : TokenId) : Prop where
  lt : t < s.nextToken
  handler : (s.tokens t).handler = none
  coroData : (s.tokens t).coroData = some c
  unexecuted : t ∉ s.executed

def State.Sleepers (s : State P) : Prop :=
  ∀ c a k, (s.coros c).status = .suspended a k → ∃ t, a.token = some t ∧ s.Wakes c t

theorem Step.Plainly.wakes (h : Step.Plainly s l s') (hw : s.Wakes c t) (hl : l ≠ .step t) :
    s'.Wakes c t := by
  have hm := h.step.moves h.single.sound
  have hlt : t < (s.popped l).nextToken := by cases l <;> exact hw.lt
  have hpop : (s.popped l).tokens t = s.tokens t := by cases l <;> rfl
  obtain ⟨hh, hcd⟩ := hm.fields t hlt
  rw [hpop] at hh hcd
  exact ⟨Nat.lt_of_lt_of_le hlt hm.nextToken, hh.trans hw.handler, hcd.trans hw.coroData,
    fun hex => (h.executed.mp hex).elim hw.unexecuted hl⟩

/-- The token of a `co_await` that suspends. -/
theorem Sleeps.wakes {a1 a : Awaitable P.User} {k : Result P.Value P.Error → P.Frame}
    {sm s1 : State P} (h : Sleeps s c a1 a k sm s1 s') (hs : Sound s)
    (hcur : s.current = some c) : ∃ t, a.token = some t ∧ s'.Wakes c t := by
  have hx := Edits.ext (h.edits 0)
  have hsm := hs.edits (by simp) (h.edits 0)
  obtain ⟨gone, own, ho⟩ := hs.owned
  obtain ⟨he, hok⟩ := awaitSuspend_spec s.current a1 sm hsm.tidy h.suspendable fun hf => hf.elim
  obtain ⟨htkn, hlt, hcr⟩ := hok a s1 h.suspends
  rw [h.suspends] at he
  have href : a.isRef = false := awaitSuspend_isRef h.isRef h.suspends
  have hq := Quiet.suspend s1 c a k
  rw [h.eq]
  refine ⟨sm.nextToken, (awaitToken_eq s1 href).symm.trans htkn, ?_, ?_, ?_, ?_⟩
  · rw [hq.nextToken]
    exact hlt
  · rw [hq.tokens]
    exact hcr.free_handler (Nat.le_refl _) hlt
  · rw [hq.tokens, hcr.coroData _ (Nat.le_refl _) hlt, hcur]
  · rw [hq.executed, (Edits.ext he).executed, hx.executed]
    intro hex
    have hold : sm.nextToken < s.nextToken := ho.lt (by rw [ho.executed _ hex]; simp)
    exact Nat.lt_irrefl _ (Nat.lt_of_lt_of_le hold hx.nextToken)

theorem Step.Plainly.sleepers (h : Step.Plainly s l s') (hw : s.Sleepers) : s'.Sleepers := by
  intro c a k hsus
  by_cases hl : l = .exec c
  · subst hl
    obtain ⟨f, hst, hcases⟩ := h.sleeps
    have hs0 : Sound (s.ran f) := h.single.sound.quiet (.of_coros rfl) rfl rfl rfl
      h.single.sound.started.current
    cases hcases with
    | inl hruns => exact absurd hsus (hruns.2 a k)
    | inr hsl =>
        obtain ⟨a1, a', k', sm, s1, hsl⟩ := hsl
        have hst' : (s'.coros c).status = .suspended a' k' := by
          rw [hsl.eq, suspend_coros, Function.update_self]
        obtain ⟨rfl, -⟩ := Status.suspended.inj (hsus.symm.trans hst')
        exact hsl.wakes hs0 (h.single.running c f hst)
  · have hold : (s.coros c).status = .suspended a k := by
      have hnext := h.step.status h.single.sound.tidy c
      generalize (s'.coros c).status = st at hnext hsus
      cases hnext with
      | keeps => exact hsus
      | called | ended | begins | resumed => cases hsus
      | acts f _ hexec => exact absurd hexec hl
    obtain ⟨t, htkn, hwk⟩ := hw c a k hold
    refine ⟨t, htkn, h.wakes hwk ?_⟩
    rintro rfl
    -- the process would run
    obtain ⟨-, hst, -⟩ := h.step.popped h.single.sound
    obtain ⟨f, hrun⟩ := hst.runs hwk.handler hwk.coroData
    rw [hsus] at hrun
    cases hrun

/-! ### Bound processes -/

/-- The start token of every process that has been bound and has not begun is pending. -/
def State.Starters (s : State P) : Prop :=
  ∀ c f, (s.coros c).env = .here → (s.coros c).status = .initial f →
    ∃ t ∈ s.queue, (s.tokens t).handler = none ∧ (s.tokens t).coroData = some c

theorem Edit.starters {cd : Option CoroId} {n : TokenId} {nn : Prop} (he : Edit cd n nn s s')
    (hs : Sound s) (hn : s'.nextToken ≤ n) (h : s.Starters) : s'.Starters := by
  intro c f henv hst
  obtain ⟨gone, own, ho⟩ := hs.owned
  have hx := he.ext
  by_cases hold : (s.coros c).env = .here
  · have hlt : c < s.nextCoro := hs.tidy.fresh.lt (by simp [hold])
    obtain ⟨t, hq, hh, hcd⟩ := h c f hold ((hx.coro c hlt).status.symm.trans hst)
    have hlt := ho.queue_lt hq
    obtain ⟨h1, h2, -⟩ := hx.tokenFields t
      (Nat.lt_of_lt_of_le hlt (Nat.le_trans hx.nextToken hn)) hlt
    exact ⟨t, hx.queue t hq, h1.trans hh, h2.trans hcd⟩
  · cases he with
    | startCoro d priority hd =>
        by_cases hcd : c = d
        · subst hcd
          refine ⟨s.nextToken, List.mem_append_right _ (List.mem_singleton_self _), ?_, ?_⟩ <;>
            simp [State.startCoro, State.log, State.scheduleToken, State.newToken, State.setCoro]
        · refine absurd ?_ hold
          simpa [State.startCoro, State.log, State.scheduleToken, State.newToken, State.setCoro,
            Function.update_of_ne hcd] using henv
    | newCoro g o =>
        by_cases hcd : c = s.nextCoro
        · subst hcd
          simp [State.newCoro, CoroData.called] at henv
        · refine absurd ?_ hold
          simpa [State.newCoro, Function.update_of_ne hcd] using henv
    | newCompletion p cd' =>
        refine absurd ?_ hold
        by_cases hcd : c = p.coro
        · subst hcd
          simpa [State.newCompletion, State.setCoro, CoroData.completionToken] using henv
        · simpa [State.newCompletion, State.setCoro, State.newToken, hcd] using henv
    | wake evt => exact absurd (by simpa [State.wake] using henv) hold
    | timeout | newWaiter | newHandler | install | setObject => exact absurd henv hold

theorem Edits.starters {cd : Option CoroId} {n : TokenId} {nn : Prop} (he : Edits cd n nn s s')
    (hs : Sound s) (hcd : ∀ c, cd = some c → (s.coros c).env = .here) (hn : s'.nextToken ≤ n)
    (h : s.Starters) : s'.Starters := by
  induction he with
  | refl => exact h
  | tail he he1 ih =>
      have hle := Nat.le_trans he1.ext.nextToken hn
      exact he1.starters (hs.edits hcd he) hn (ih hle)

/-- One process is in another state, and the start tokens of the others are kept. -/
theorem State.Starters.update {d : CoroData P} (h : s.Starters)
    (hq : ∀ e t, e ≠ c → t ∈ s.queue → (s.tokens t).handler = none →
      (s.tokens t).coroData = some e → t ∈ s'.queue ∧ s'.tokens t = s.tokens t)
    (hco : s'.coros = Function.update s.coros c d)
    (hd : d.env = .here → ∀ f, d.status ≠ .initial f) : s'.Starters := by
  intro e f henv hst
  rw [hco] at henv hst
  by_cases hec : e = c
  · subst hec
    rw [Function.update_self] at henv hst
    exact absurd hst (hd henv f)
  · rw [Function.update_of_ne hec] at henv hst
    obtain ⟨t, hmem, hh, hcd⟩ := h e f henv hst
    obtain ⟨hmem', htok⟩ := hq e t hec hmem hh hcd
    exact ⟨t, hmem', by rw [htok]; exact hh, by rw [htok]; exact hcd⟩

theorem State.Starters.goes {st : Status P} {os : List (Obs P.Value P.Error)} (h : s.Starters)
    (hg : Goes c st os s s') (hst : ∀ f, st ≠ .initial f) : s'.Starters :=
  h.update (fun _ t _ ht _ _ => by rw [hg.quiet.queue, hg.quiet.tokens]; exact ⟨ht, rfl⟩) hg.coros
    fun _ => hst

/-- A token that lets a body run is the start token of no other process. -/
theorem State.Starters.enters {f : P.Frame} {os : List (Obs P.Value P.Error)} (h : s.Starters)
    (he : Enters t c f os s s') : s'.Starters := by
  refine h.update (fun e u hec hu _ hcd => ?_) he.coros (by simp)
  have hne : u ≠ t := by
    rintro rfl
    exact hec (Option.some.inj (hcd.symm.trans he.coroData))
  rw [he.queue, he.tokens]
  exact ⟨(List.mem_erase_of_ne hne).mpr hu, rfl⟩

theorem State.Starters.passes (h : s.Starters) (hs : Sound s) (hp : Passes t s s') :
    s'.Starters := by
  obtain ⟨gone, own, ho⟩ := hs.owned
  intro c f henv hst
  rw [hp.coros] at henv hst
  obtain ⟨u, hmem, hh, hcd⟩ := h c f henv hst
  have hne : u ≠ t := by
    rintro rfl
    cases hp.handled with
    | inl hsome => exact hsome hh
    | inr hnone =>
        rw [hnone] at hcd
        cases hcd
  have htok := hp.token u fun i hi => by
    have hown := ho.queue u hmem
    rw [ho.output i u hi] at hown
    cases hown
  exact ⟨u, hp.queue u ((List.mem_erase_of_ne hne).mpr hmem), by rw [htok]; exact hh,
    by rw [htok]; exact hcd⟩

theorem Step.Plainly.starters (h : Step.Plainly s l s') (hw : s.Starters) : s'.Starters := by
  have hs := h.single.sound
  obtain ⟨gone, own, ho⟩ := hs.owned
  have hstep := h.step
  cases hstep with
  | call f o =>
      have he : Edit none s.nextToken False s (s.newCoro (.user (P.start f)) o) :=
        .newCoro _ o (.user f) fun hf => hf.elim
      exact he.starters hs (Nat.le_refl _) hw
  | bind a =>
      have he : Edits none (s.bind a).nextToken False s (s.bind a) :=
        bind_call_edits hs.tidy a fun hf => hf.elim
      exact Edits.starters he hs (by simp) (Nat.le_refl _) hw
  | elsewhere c henv =>
      exact hw.update (c := c) (fun _ t _ ht _ _ => ⟨ht, rfl⟩) rfl fun hd => by cases hd
  | step t _ htop hst =>
      cases (step_stepped hst).did with
      | passes hp => exact hw.passes hs hp
      | starts c f _ he | resumes c a k r _ _ he => exact hw.enters he
  | advance deadline => exact hw
  | exec c _ hex =>
      obtain ⟨f, hst, hdid⟩ := exec_did hs.tidy hex fun _ _ hf => hf.elim
      have hs0 : Sound (s.ran f) := hs.quiet (.of_coros rfl) rfl rfl rfl hs.started.current
      have hw0 : (s.ran f).Starters := hw
      cases hdid with
      | goes s1 _ g he hg =>
          exact (Edits.starters (he _) hs0 (by simp) (Nat.le_refl _) hw0).goes hg (by simp)
      | result a k s1 target r hact he =>
          exact (Edits.starters (he _) hs0 (by simp) (Nat.le_refl _) hw0).goes
            (.deliver s1 c target k r) (by simp)
      | throws a k sm s1 e hact hthrow =>
          rw [h.free.sequential f a k hst hact] at hthrow
          cases hthrow
      | moved o k r => exact hw0.goes (.moved (s.ran f) c o _ _ r) (by simp)
      | suspends a a' k sm s1 hact hm he hsus =>
          have hwm := Edits.starters (hm _) hs0 (by simp) (Nat.le_refl _) hw0
          obtain ⟨gone, own, hom⟩ := (hs0.edits (by simp) (hm 0)).owned
          have hx := Edits.ext he
          have hw1 : s1.Starters := by
            intro e g henv hinit
            rw [hsus.coro e] at henv hinit
            obtain ⟨t, hmem, hh, hcd⟩ := hwm e g henv hinit
            have hlt := hom.queue_lt hmem
            obtain ⟨h1, h2, -⟩ := hx.tokenFields t hlt hlt
            exact ⟨t, hx.queue t hmem, h1.trans hh, h2.trans hcd⟩
          exact hw1.goes (.suspend s1 c a' k) (by simp)
      | returns v hact =>
          obtain ⟨w, hcl, -⟩ := h.step.closes hs ⟨f, v, rfl, hst, hact⟩
          intro e g henv hinit
          by_cases hec : e = c
          · subst hec
            rw [hcl.self] at hinit
            cases hinit
          · rw [hcl.coro e hec] at henv hinit
            obtain ⟨t, hmem, hh, hcd⟩ := hw e g henv hinit
            have htok := hcl.token t (ho.queue_notMem_completion hmem c)
            exact ⟨t, by rw [hcl.queue]; exact List.mem_append_left _ hmem,
              by rw [htok]; exact hh, by rw [htok]; exact hcd⟩
      | fails e hact => exact absurd hact (h.free.returns c f e rfl hst)
  | reset => exact h.free.sequential.elim

end Cxxdes
