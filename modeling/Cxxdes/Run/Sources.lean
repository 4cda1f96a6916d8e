-- SUMMARY: A suspended process has at most one token that can resume it, and that token answers the await it is suspended in.
import Cxxdes.Run.Replay
import Cxxdes.Run.Wiring

/-!
# Resumption sources

A source of a process is a live token without a handler that names it. The
losing children of a composition keep naming the process, but they report to a
handler. The invariant is that a source is the start token of a process that has
not started, or the token of the await that the process is suspended in. It is
proved but for a set of tokens, for runs in which failed awaits leave some behind.
-/

namespace Cxxdes

variable {P : Program}

/-- `t` can still resume `c`. -/
def State.Source (s : State P) (c : CoroId) (t : TokenId) : Prop :=
  s.Live t ∧ (s.tokens t).handler = none ∧ (s.tokens t).coroData = some c

/-- Executing `t` is what `c` waits for. -/
def State.Answers (s : State P) (c : CoroId) (t : TokenId) : Prop :=
  match (s.coros c).status with
  | .initial _ => (s.coros c).startToken = some t
  | .suspended a _ => a.token = some t
  | _ => False

/-- The invariant, for all processes but `x`. -/
def Sources (x : Option CoroId) (s : State P) : Prop :=
  ∀ c t, some c ≠ x → s.Source c t → s.Answers c t

/-- The invariant, for all processes but `x` and but for the tokens `D` of each. -/
def SourcesBut (D : CoroId → TokenId → Prop) (x : Option CoroId) (s : State P) : Prop :=
  ∀ c t, ¬ D c t → some c ≠ x → s.Source c t → s.Answers c t

variable {s s' : State P} {D D' : CoroId → TokenId → Prop} {x : Option CoroId}

theorem SourcesBut.mono (h : SourcesBut D x s) (hD : ∀ c t, D c t → D' c t) : SourcesBut D' x s :=
  fun c t hno => h c t fun hd => hno (hD c t hd)

/-! ### The invariant and the edits -/

/-- The token that a process waits for keeps its part when others await. -/
theorem Ext.answers {n : TokenId} (hx : Ext n s s') (hf : s.Fresh) (hw : Wired s) {c : CoroId}
    {t : TokenId} (h : s.Answers c t) : s'.Answers c t := by
  have hlt : c < s.nextCoro := hf.lt_of_status (fun hst => by simp [State.Answers, hst] at h)
  have hc := hx.coro c hlt
  unfold State.Answers at h ⊢
  rw [hc.status]
  split at h
  · have henv : (s.coros c).env ≠ .unbound := fun hu => by
      rw [(hw.unbound c hu).1] at h
      cases h
    exact (hc.bound henv).2.1.trans h
  · exact h
  · exact h

theorem SourcesBut.edits {nn : Prop} (h : SourcesBut D x s) (hs : Sound s)
    (hx : ∀ c, x = some c → (s.coros c).env = .here) (he : Edits x s.nextToken nn s s') :
    SourcesBut D x s' := by
  intro c t hno hcx ⟨hlive, hfree, hcd⟩
  obtain ⟨gone, own', ho'⟩ := (hs.edits hx he).owned
  rcases Nat.lt_or_ge t s.nextToken with hlt | hge
  · obtain ⟨h1, h2, -⟩ := he.ext.tokenFields t hlt hlt
    exact he.ext.answers hs.tidy.fresh hs.wired
      (h c t hno hcx ⟨he.ext.live_old hlive hlt, h1 ▸ hfree, h2 ▸ hcd⟩)
  · rcases he.named hs hx hge (ho'.live_lt hlive) with hn | hn | ⟨c', f, hn, -, -, hst, hf⟩
    · rw [hn] at hcd; cases hcd
    · exact absurd (hcd.symm.trans hn) hcx
    · obtain rfl : c' = c := Option.some.inj (hn.symm.trans hcd)
      unfold State.Answers
      rw [hf]
      exact hst

/-! ### The invariant and the other updates -/

theorem SourcesBut.congr (h : SourcesBut D x s)
    (hlive : ∀ t, s'.Live t → s.Live t)
    (htok : ∀ t, (s'.tokens t).handler = (s.tokens t).handler ∧
      (s'.tokens t).coroData = (s.tokens t).coroData)
    (hans : ∀ c t, ¬ D c t → s.Source c t → s.Answers c t → s'.Answers c t) :
    SourcesBut D x s' := by
  intro c t hno hx ⟨hl, hfree, hcd⟩
  rw [(htok t).1] at hfree
  rw [(htok t).2] at hcd
  have hsrc : s.Source c t := ⟨hlive t hl, hfree, hcd⟩
  exact hans c t hno hsrc (h c t hno hx hsrc)

/-- The invariant of runs in which one body runs at a time. -/
structure Single (s : State P) : Prop where
  sound : Sound s
  sources : Sources none s
  running : ∀ c f, (s.coros c).status = .running f → s.current = some c

/-- The invariant, but for the tokens `D`. -/
structure SingleBut (D : CoroId → TokenId → Prop) (s : State P) : Prop where
  sound : Sound s
  sources : SourcesBut D none s
  running : ∀ c f, (s.coros c).status = .running f → s.current = some c

theorem single_iff : Single s ↔ SingleBut (fun _ _ => False) s :=
  ⟨fun h => ⟨h.sound, fun c t _ => h.sources c t, h.running⟩,
    fun h => ⟨h.sound, fun c t => h.sources c t id, h.running⟩⟩

/-- A quiet change that puts `c` in a state in which nothing can resume it. -/
theorem SourcesBut.update (h : SourcesBut D none s) (hq : Quiet s s') {c : CoroId}
    {d : CoroData P} (hco : s'.coros = Function.update s.coros c d)
    (hno : ∀ t, ¬ D c t → ¬ s.Source c t) : SourcesBut D none s' := by
  refine h.congr (fun t ht => hq.live ht) (fun t => ?_) (fun c' t hD hsrc ha => ?_)
  · rw [hq.tokens]; exact ⟨rfl, rfl⟩
  · have hne : c' ≠ c := by rintro rfl; exact hno t hD hsrc
    unfold State.Answers at ha ⊢
    rw [hco, Function.update_of_ne hne]
    exact ha

/-- Nothing can resume a running process. -/
theorem SourcesBut.no_source (h : SourcesBut D none s) {c : CoroId} {f : P.Frame}
    (hst : (s.coros c).status = .running f) (t : TokenId) (hno : ¬ D c t) : ¬ s.Source c t := by
  intro hsrc
  have ha := h c t hno (by simp) hsrc
  simp [State.Answers, hst] at ha

/-- The body of `c` gets control or runs on. -/
theorem SingleBut.run {c : CoroId} {d : CoroData P} (hs : Sound s') (h : SourcesBut D none s)
    (hq : Quiet s s') (hco : s'.coros = Function.update s.coros c d)
    (hcur : s'.current = some c) (hno : ∀ t, ¬ D c t → ¬ s.Source c t)
    (hrun : ∀ c' g, (s.coros c').status = .running g → c' = c) : SingleBut D s' := by
  refine ⟨hs, h.update hq hco hno, fun c' g hg => ?_⟩
  rw [hco] at hg
  by_cases hcc : c' = c
  · rw [hcur, hcc]
  · rw [Function.update_of_ne hcc] at hg
    exact absurd (hrun c' g hg) hcc

/-! ### step -/

/-- The popped token is not a source any more. -/
theorem SourcesBut.pop (h : SourcesBut D x s) (t : TokenId) : SourcesBut D x (s.pop t) :=
  fun c u hno hx hsrc => h c u hno hx ⟨State.pop_live hsrc.1, hsrc.2⟩

theorem SingleBut.count (h : SingleBut D s) (i : HandlerId) : SingleBut D (s.count i) := by
  refine ⟨h.sound.count i, h.sources.congr (fun t ht => ?_) (fun _ => ⟨rfl, rfl⟩)
    fun _ _ _ _ ha => ha, h.running⟩
  rcases ht with ht | ht | ht | ⟨j, ht⟩
  · exact .inl ht
  · exact .inr (.inl ht)
  · exact .inr (.inr (.inl ht))
  · exact .inr (.inr (.inr ⟨j, (count_completionTkn s i j).symm.trans ht⟩))

theorem SingleBut.fire (h : SingleBut D s) {i : HandlerId} {t out : TokenId}
    (hi : (s.tokens t).handler = some i) (hout : (s.handlers i).completionTkn = some out) :
    SingleBut D (s.fire i t out) := by
  refine ⟨h.sound.fire hi hout, h.sources.congr (fun u hu => ?_)
    (h.sound.wired.fire_fields hi hout) fun _ _ _ _ ha => ha, h.running⟩
  rcases hu with hu | hu | hu | ⟨j, hu⟩
  · rcases List.mem_append.mp hu with hu | hu
    · exact .inl hu
    · rw [List.mem_singleton.mp hu]; exact .inr (.inr (.inr ⟨i, hout⟩))
  · exact .inr (.inl hu)
  · exact .inr (.inr (.inl hu))
  · exact .inr (.inr (.inr ⟨j, fire_completionTkn hu⟩))

/-- A change of the trace or of the memory. -/
theorem SingleBut.quiet (h : SingleBut D s) (hq : Quiet s s') (hn : s'.nextCoro = s.nextCoro)
    (hco : s'.coros = s.coros) (hm : s'.managed = s.managed) (hcur : s'.current = s.current) :
    SingleBut D s' := by
  refine ⟨h.sound.quiet hq hn hco hm fun c hc => h.sound.started.current c (hcur ▸ hc),
    h.sources.congr (fun t ht => hq.live ht) (fun t => ?_) ?_, ?_⟩
  · rw [hq.tokens]; exact ⟨rfl, rfl⟩
  · intro c t _ _ ha
    unfold State.Answers at ha ⊢
    rw [hco]
    exact ha
  · rw [hco, hcur]; exact h.running

/-- `step()`, unless the token that it executes is among those that are left out. -/
theorem SingleBut.stepped (h : SingleBut D s) (hcur : s.current = none) {t : TokenId}
    (ht : t ∈ s.queue) (hD : ∀ c, D c t → (s.tokens t).handler = none →
      (s.tokens t).coroData = some c → (s.coros c).status = .finished)
    (hst : Stepped s t s') : SingleBut D s' := by
  obtain ⟨gone, own, ho⟩ := h.sound.owned
  have hs' := h.sound.stepped ht hst
  have hdead : ¬ (s.pop t).Live t := (ho.pop ht).executed_notLive (Function.update_self ..)
  have hp : SingleBut D (s.pop t) := ⟨h.sound.pop ht, h.sources.pop t, h.running⟩
  have hidle : ∀ c f, (s.coros c).status ≠ .running f := fun c f hf => by
    have := h.running c f hf
    rw [hcur] at this
    cases this
  have hsrc : ∀ c, (s.tokens t).handler = none → (s.tokens t).coroData = some c →
      (s.coros c).status ≠ .finished → s.Answers c t := fun c hh hc hne =>
    h.sources c t (fun hd => hne (hD c hd hh hc)) (by simp) ⟨.inl ht, hh, hc⟩
  cases hst with
  | rethrow i e hh => exact (hp.count i).quiet (.of_coros rfl) rfl rfl rfl rfl
  | fire i out hh he hout => exact hp.fire hh hout
  | count i => exact hp.count i
  | start c f hh hc hst =>
      have hans := hsrc c hh hc (by simp [hst])
      simp only [State.Answers, hst] at hans
      have hq : Quiet (s.pop t) { s.pop t with current := some c } := .of_coros rfl
      refine SingleBut.run (c := c) (d := { s.coros c with status := .running f }) hs' hp.sources
        ((hq.trans (.setStatus _ c _)).trans (.of_coros rfl)) rfl rfl ?_
        fun c' g hg => absurd hg (hidle c' g)
      intro u hno hu
      have ha := hp.sources c u hno (by simp) hu
      have ha : (s.coros c).startToken = some u := by
        simpa [State.Answers, State.pop, hst] using ha
      obtain rfl : t = u := Option.some.inj (hans.symm.trans ha)
      exact hdead hu.1
  | resume c a k r s1 hh hc hst hr =>
      have hans := hsrc c hh hc (by simp [hst])
      simp only [State.Answers, hst] at hans
      have henv := h.sound.started.token t c hc
      have hlt : c < s.nextCoro := h.sound.tidy.fresh.lt_of_status (by simp [hst])
      have hs0 : Sound { s.pop t with current := some c } :=
        hp.sound.quiet (.of_coros rfl) rfl rfl rfl fun c' hc' => by cases hc'; exact henv
      have h0 : SourcesBut D none { s.pop t with current := some c } :=
        hp.sources.congr (fun _ hu => hu) (fun _ => ⟨rfl, rfl⟩) fun _ _ _ _ ha => ha
      have he : Edits none s.nextToken False { s.pop t with current := some c } s1 :=
        awaitResume_edits_of hr
      have h1 := h0.edits hs0 (by simp) he
      have hst1 : (s1.coros c).status = .suspended a k := (he.ext.coro c hlt).status.trans hst
      have hlog : Quiet s1 (s1.log (.resumed c t (s.pop t).now)) := .of_coros rfl
      refine SingleBut.run (c := c) (d := { s1.coros c with status := .running (k r) }) hs' h1
        (hlog.trans (.deliver _ c a.target k r)) rfl he.ext.current ?_ ?_
      · intro u hno hu
        have ha := h1 c u hno (by simp) hu
        simp only [State.Answers, hst1] at ha
        obtain rfl : t = u := Option.some.inj (hans.symm.trans ha)
        have hlt' : t < s.nextToken := ho.queue_lt ht
        exact hdead (he.ext.live_old hu.1 hlt')
      · exact fun c' g hg => absurd (he.running_old hg) (hidle c' g)
  | raise e => exact hp.quiet (.of_coros rfl) rfl rfl rfl rfl
  | skip => exact hp

/-! ### One action of a body -/

/-- The end of a process, of which nothing is a source. -/
theorem SingleBut.doReturn (h : SingleBut D s) {c : CoroId} {f : P.Frame}
    (hst : (s.coros c).status = .running f) (r : Result P.Value P.Error) :
    SingleBut D (s.doReturn c r) := by
  have hs' := h.sound.doReturn (h.sound.started.env_of_running hst) r
  have hno := h.sources.no_source hst
  have htok := doReturn_fields s c r
  rw [State.doReturn_eq] at hs' htok ⊢
  refine ⟨hs', h.sources.congr (fun u hu => ?_) htok (fun c' u hD hsrc ha => ?_), fun c' g hg => ?_⟩
  · rcases hu with hu | ⟨e, hu⟩ | ⟨c', hu⟩ | ⟨i, hu⟩
    · have hu : u ∈ s.queue ++ (s.coros c).completionTokens := by simpa using hu
      rcases List.mem_append.mp hu with hu | hu
      · exact .inl hu
      · exact .inr (.inr (.inl ⟨c, hu⟩))
    · exact .inr (.inl ⟨e, by simpa using hu⟩)
    · by_cases hc : c' = c
      · subst hc; simp at hu
      · exact .inr (.inr (.inl ⟨c', by simpa [Function.update_of_ne hc] using hu⟩))
    · exact .inr (.inr (.inr ⟨i, by simpa using hu⟩))
  · have hne : c' ≠ c := by rintro rfl; exact hno u hD hsrc
    unfold State.Answers at ha ⊢
    simpa [Function.update_of_ne hne] using ha
  · by_cases hc : c' = c
    · subst hc; simp at hg
    · have hg : (s.coros c').status = .running g := by simpa [Function.update_of_ne hc] using hg
      have h1 := h.running c' g hg
      rw [h.running c f hst] at h1
      exact absurd (Option.some.inj h1).symm hc

/-- Of the tokens that `await_suspend` created, the token of the awaitable is the
only source of `c`. -/
theorem Created.answers {sm s1 : State P} {c : CoroId} {t u : TokenId} {nn : Prop}
    (hcr : Created (some c) sm s1 (some t) none) (he : Edits (some c) sm.nextToken nn sm s1)
    {gone : List TokenId} {own : TokenId → Owner} (ho : Owned gone s1 own)
    (hno : ¬ sm.Source c u) (hsrc : s1.Source c u) : t = u := by
  obtain ⟨hlive, hfree, hcd⟩ := hsrc
  rcases Nat.lt_or_ge u sm.nextToken with hlt | hge
  · obtain ⟨h1, h2, -⟩ := he.ext.tokenFields u hlt hlt
    exact absurd ⟨he.ext.live_old hlive hlt, h1 ▸ hfree, h2 ▸ hcd⟩ hno
  · have hh := hcr.handler u hge (ho.live_lt hlive)
    rw [hfree] at hh
    exact Option.some.inj hh

/-- An exception stored in tokens. -/
theorem SingleBut.propagateException (h : SingleBut D s) (c : CoroId) (e : Exn P.Error) :
    SingleBut D (s.propagateException c e) := by
  have hs' := h.sound.propagateException c e
  have htok := propagateException_fields s c e
  rw [State.propagateException_eq] at hs' htok ⊢
  exact ⟨hs', h.sources.congr (fun _ hu => hu) htok fun _ _ _ _ ha => ha, h.running⟩

/-- Awaiting, up to the point where something happens to the body. -/
theorem SingleBut.edits {nn : Prop} (h : SingleBut D s) (he : Edits none s.nextToken nn s s') :
    SingleBut D s' :=
  ⟨h.sound.edits (by simp) he, h.sources.edits h.sound (by simp) he, fun c f hf =>
    he.ext.current.trans (h.running c f (he.running_old hf))⟩

/-- One action of the body of `c`. If its `await_suspend` throws, the tokens that it
leaves to `c` are among those that are left out from then on. -/
theorem SingleBut.ran {nn : Prop} {c : CoroId} {f : P.Frame}
    {act : Action P.User P.Frame P.Value P.Error} (h : SingleBut D s)
    (hst : (s.coros c).status = .running f) (hD : ∀ c t, D c t → D' c t)
    (hthrow : ∀ a k, act = .await a k → s.suspendThrows c a = true →
      ∀ t, s.nextToken ≤ t → s'.Source c t → D' c t)
    (hr : Ran nn s c act s') : SingleBut D' s' := by
  replace h : SingleBut D' s := ⟨h.sound, h.sources.mono hD, h.running⟩
  have hs' := h.sound.ran hst hr
  have hlt : c < s.nextCoro := h.sound.tidy.fresh.lt_of_status (by simp [hst])
  have hcur : s.current = some c := h.running c f hst
  have honly : ∀ c' g, (s.coros c').status = .running g → c' = c := by
    intro c' g hg
    have h1 := h.running c' g hg
    rw [hcur] at h1
    exact (Option.some.inj h1).symm
  cases hr with
  | continues s1 _ he hcont =>
      have h1 := h.sources.edits h.sound (by simp) he
      have hst1 : (s1.coros c).status = .running f := (he.ext.coro c hlt).status.trans hst
      obtain ⟨g, hco⟩ := hcont.coros
      exact SingleBut.run hs' h1 hcont.quiet hco
        (hcont.current.trans (he.ext.current.trans hcur)) (h1.no_source hst1)
        fun c' g hg => honly c' g (he.running_old hg)
  | throws a k sm s1 _ hact ht hm he hcont =>
      have hsm := h.edits hm
      have hstm : (sm.coros c).status = .running f := (hm.ext.coro c hlt).status.trans hst
      have hcurm : ∀ c', s.current = some c' → (sm.coros c').env = .here := fun c' hc' =>
        hsm.sound.started.current c' (hm.ext.current.trans hc')
      have hx : SourcesBut D' s.current sm := fun c' t hno _ => hsm.sources c' t hno (by simp)
      have h1 := hx.edits hsm.sound hcurm he
      obtain ⟨g, hco⟩ := hcont.coros
      refine ⟨hs', fun c' t hno _ hsrc' => ?_, fun c' g' hg => ?_⟩
      · have hsrc : s1.Source c' t := by
          obtain ⟨hl, hfree, hcd⟩ := hsrc'
          rw [hcont.quiet.tokens] at hfree hcd
          exact ⟨hcont.quiet.live hl, hfree, hcd⟩
        by_cases hc : c' = c
        · -- a new token is left out, an older one could have resumed `c` while it runs
          subst hc
          refine absurd (hthrow a k hact ht t ?_ hsrc') hno
          refine Nat.le_of_not_lt fun hlt0 => hsm.sources.no_source hstm t hno ?_
          have hlt1 := Nat.lt_of_lt_of_le hlt0 hm.ext.nextToken
          obtain ⟨h1, h2, -⟩ := he.ext.tokenFields t hlt1 hlt1
          exact ⟨he.ext.live_old hsrc.1 hlt1, h1 ▸ hsrc.2.1, h2 ▸ hsrc.2.2⟩
        · have ha := h1 c' t hno (by rw [hcur]; simpa using hc) hsrc
          unfold State.Answers at ha ⊢
          rw [hco, Function.update_of_ne hc]
          exact ha
      · rw [hcont.current, he.ext.current, hm.ext.current, hcur]
        by_cases hc : c' = c
        · rw [hc]
        · rw [hco, Function.update_of_ne hc] at hg
          exact absurd (honly c' g' (hm.running_old (he.running_old hg))) hc
  | suspends a a' k sm s1 hact hm he href htkn hlt1 hcr =>
      have hsm := h.edits hm
      have hstm : (sm.coros c).status = .running f := (hm.ext.coro c hlt).status.trans hst
      have hcurm : ∀ c', s.current = some c' → (sm.coros c').env = .here := fun c' hc' =>
        hsm.sound.started.current c' (hm.ext.current.trans hc')
      have hx : SourcesBut D' s.current sm := fun c' t hno _ => hsm.sources c' t hno (by simp)
      have h1 := hx.edits hsm.sound hcurm he
      obtain ⟨gone, own1, ho1⟩ := (hsm.sound.edits hcurm he).owned
      have hq := Quiet.suspend s1 c a' k
      have hco := suspend_coros s1 c a' k
      rw [hcur] at he hcr
      refine ⟨hs', fun c' t hno _ ⟨hl, hfree, hcd⟩ => ?_, fun c' g hg => ?_⟩
      · have hsrc : s1.Source c' t := by
          rw [hq.tokens] at hfree hcd
          exact ⟨hq.live hl, hfree, hcd⟩
        unfold State.Answers
        rw [hco]
        by_cases hc : c' = c
        · subst hc
          rw [Function.update_self]
          exact htkn.trans (congrArg some
            (hcr.answers he ho1 (hsm.sources.no_source hstm t hno) hsrc))
        · rw [Function.update_of_ne hc]
          exact h1 c' t hno (by rw [hcur]; simpa using hc) hsrc
      · rw [hco] at hg
        by_cases hc : c' = c
        · subst hc; simp at hg
        · rw [Function.update_of_ne hc] at hg
          exact absurd (honly c' g (hm.running_old (he.running_old hg))) hc
  | returns v =>
      have henv := h.sound.started.env_of_running hst
      have h1 : Sound (s.setCoro c { s.coros c with returnValue := v }) :=
        h.sound.update (.setCoro s c _ rfl rfl) rfl henv (complete_of_status (by simp [hst])) rfl
          henv rfl h.sound.started.current
      have h2 : SingleBut D' (s.setCoro c { s.coros c with returnValue := v }) :=
        SingleBut.run h1 h.sources (.setCoro s c _ rfl rfl) rfl hcur (h.sources.no_source hst) honly
      exact h2.doReturn (f := f) (by simpa [State.setCoro] using hst) _
  | fails e =>
      have h1 := h.propagateException c e
      rw [State.propagateException_eq] at h1 ⊢
      exact h1.doReturn hst _

/-! ### Runs -/

/-- The steps of a run without `reset`, in which `step()` is not called by a body,
and no `await_suspend` throws. -/
def Sequential (s : State P) : Label P → Prop
  | .step _ => s.current = none
  | .exec c => ∀ f a k, (s.coros c).status = .running f → s.next f = .await a k →
      (s.ran f).suspendThrows c a = false
  | .reset => False
  | _ => True

theorem Single.init (m : P.Memory) : Single (State.init m : State P) := by
  refine ⟨Sound.init m, fun c t _ hsrc => ?_, fun c f hf => (by cases hf)⟩
  rcases hsrc.1 with ht | ⟨e, ht⟩ | ⟨c, ht⟩ | ⟨i, ht⟩ <;> cases ht

/-- A transition. The tokens of `D` are not executed for their process, and those that
a failed await leaves behind are added to it. -/
theorem Step.singleBut {l : Label P} (hstep : Step s l s') (h : SingleBut D s)
    (hl : ∀ t, l = .step t → s.current = none ∧ ∀ c, D c t → (s.tokens t).handler = none →
      (s.tokens t).coroData = some c → (s.coros c).status = .finished)
    (hD : ∀ c t, D c t → D' c t)
    (hthrow : ∀ c f a k, l = .exec c → (s.coros c).status = .running f → s.next f = .await a k →
      (s.ran f).suspendThrows c a = true → ∀ t, s.nextToken ≤ t → s'.Source c t → D' c t)
    (hreset : l = .reset → ∀ c t, s.Source c t → (s'.coros c).status = .finished → D' c t) :
    SingleBut D' s' := by
  have hs' := hstep.sound h.sound
  have h' : SingleBut D' s := ⟨h.sound, h.sources.mono hD, h.running⟩
  cases hstep with
  | call f o =>
      have he : Edits none s.nextToken False s (s.newCoro (.user (P.start f)) o) :=
        .single (.newCoro _ o (.user f) (by simp))
      exact h'.edits he
  | bind a =>
      have he : Edits none s.nextToken False s (s.bind a) :=
        bind_call_edits h.sound.tidy a (by simp)
      exact h'.edits he
  | elsewhere c henv =>
      have hq : Quiet s (s.setCoro c { s.coros c with env := .elsewhere }) := .setCoro s c _ rfl rfl
      have hst : ∀ c', ((s.setCoro c { s.coros c with env := .elsewhere }).coros c').status =
          (s.coros c').status ∧
          ((s.setCoro c { s.coros c with env := .elsewhere }).coros c').startToken =
            (s.coros c').startToken := by
        intro c'
        by_cases hc : c' = c
        · subst hc; simp [State.setCoro]
        · simp [State.setCoro, Function.update_of_ne hc]
      refine ⟨hs', h'.sources.congr (fun t ht => hq.live ht) (fun _ => ⟨rfl, rfl⟩) ?_, ?_⟩
      · intro c' t _ _ ha
        unfold State.Answers at ha ⊢
        rwa [(hst c').1, (hst c').2]
      · intro c' f hf
        exact h.running c' f ((hst c').1.symm.trans hf)
  | step t _ htop hst =>
      obtain ⟨hcur, hdead⟩ := hl t rfl
      have h1 := h.stepped hcur htop.1 hdead (step_stepped hst)
      exact ⟨hs', h1.sources.mono hD, h1.running⟩
  | advance deadline =>
      exact ⟨hs', h'.sources.congr (fun _ hu => hu) (fun _ => ⟨rfl, rfl⟩) fun _ _ _ _ ha => ha,
        h.running⟩
  | exec c _ hex =>
      obtain ⟨f, hst, hran⟩ := exec_ran h.sound.tidy hex fun _ _ hf => hf.elim
      have h1 : SingleBut D (s.ran f) := h.quiet (.of_coros rfl) rfl rfl rfl rfl
      exact h1.ran hst hD (fun a k hact hthr => hthrow c f a k rfl hst hact hthr) hran
  | reset hcur hidle =>
      -- what `reset()` destroys is left out, and nothing runs
      have hco : ∀ c, (s.reset.coros c).status = .finished ∨ s.reset.coros c = s.coros c := by
        intro c
        unfold State.reset
        rw [State.destroyAll_eq]
        by_cases hm : c ∈ s.managed
        · exact .inl (by simp [hm])
        · exact .inr (by simp [hm])
      refine ⟨hs', h'.sources.congr (fun t ht => ?_) (fun t => ?_) fun c t hno hsrc ha => ?_,
        fun c f hf => ?_⟩
      · unfold State.reset at ht
        rw [State.destroyAll_eq] at ht
        rcases ht with ht | ht | ⟨c, ht⟩ | ht
        · cases ht
        · exact .inr (.inl ht)
        · refine .inr (.inr (.inl ⟨c, ?_⟩))
          simp only at ht
          split at ht <;> exact ht
        · exact .inr (.inr (.inr ht))
      · unfold State.reset
        rw [State.destroyAll_eq]
        exact ⟨rfl, rfl⟩
      · have heq := (hco c).resolve_left fun hfin => hno (hreset rfl c t hsrc hfin)
        unfold State.Answers at ha ⊢
        rw [heq]
        exact ha
      · cases hco c with
        | inl hfin => rw [hfin] at hf; cases hf
        | inr heq => rw [heq] at hf; exact absurd hf (hidle c f)

theorem Step.single {l : Label P} (hstep : Step s l s') (hl : Sequential s l)
    (h : Single s) : Single s' := by
  refine single_iff.mpr (hstep.singleBut (single_iff.mp h) ?_ (fun _ _ => id) ?_ ?_)
  · rintro t rfl
    exact ⟨hl, fun _ hf => hf.elim⟩
  · rintro c f a k rfl hst hact hthrow
    rw [hl f a k hst hact] at hthrow
    cases hthrow
  · rintro rfl
    exact hl.elim

theorem Reachable.single {C : State P → Label P → Prop} (h : Reachable C s)
    (hC : ∀ s l, C s l → Sequential s l) : Single s := by
  obtain ⟨m, h⟩ := h
  exact h.invariant (fun s l s' hs hc hstep => hstep.single (hC s l hc) hs) (Single.init m)

/-- Between two calls of `step()`: a process has at most one source and a completed
one has none, whatever executes a token that names a process answers what that
process is suspended in (or starts it), and no assertion of `step()` fails. -/
theorem single_resumption (h : Reachable Sequential s) :
    (∀ c t u, s.Source c t → s.Source c u → t = u) ∧
    (∀ c t, (s.coros c).complete = true → ¬ s.Source c t) ∧
    (∀ c t, t ∈ s.queue → (s.tokens t).handler = none → (s.tokens t).coroData = some c →
      s.Answers c t) ∧
    (∀ t e, t ∈ s.queue → s.step t ≠ .error e) := by
  have hs := (h.single fun _ _ hl => hl).sources
  have hstep : ∀ c t, t ∈ s.queue → (s.tokens t).handler = none →
      (s.tokens t).coroData = some c → s.Answers c t :=
    fun c t ht hfree hcd => hs c t (by simp) ⟨.inl ht, hfree, hcd⟩
  refine ⟨fun c t u ht hu => ?_, fun c t hc ht => ?_, hstep, fun t e ht he => ?_⟩
  · have h1 := hs c t (by simp) ht
    have h2 := hs c u (by simp) hu
    unfold State.Answers at h1 h2
    split at h1
    · exact Option.some.inj (h1.symm.trans (by simpa [*] using h2))
    · exact Option.some.inj (h1.symm.trans (by simpa [*] using h2))
    · exact h1.elim
  · have h1 := hs c t (by simp) ht
    unfold CoroData.complete at hc
    split at hc
    · next hst => simp [State.Answers, hst] at h1
    · cases hc
  · unfold State.step at he
    simp only at he
    split at he
    · split at he <;> cases he
    · next hh =>
        split at he
        · next c hc =>
            have h1 := hstep c t ht hh hc
            unfold State.resume at he
            have hst : ∀ st, (s.coros c).status = st →
                (({ s.pop t with current := some c } : State P).coros c).status = st :=
              fun _ h => h
            cases hcs : (s.coros c).status with
            | initial f => rw [hst _ hcs] at he; cases he
            | suspended a k => rw [hst _ hcs] at he; cases he
            | running f => simp [State.Answers, hcs] at h1
            | finished => simp [State.Answers, hcs] at h1
        · split at he <;> cases he

/-- The conditions of `Sequential`, evaluated. -/
def State.sequential (s : State P) : Label P → Bool
  | .step _ => s.current.isNone
  | .exec c => s.checks (fun f a => !(s.ran f).suspendThrows c a) c
  | .reset => false
  | _ => true

theorem State.sequential_spec (s : State P) (l : Label P) (h : s.sequential l = true) :
    Sequential s l := by
  cases l with
  | step t => exact Option.isNone_iff_eq_none.mp h
  | exec c =>
      intro f a k hst hact
      simpa using State.checks_await h hst hact
  | reset => cases h
  | call | bind | elsewhere | advance => trivial

theorem single_resumption_relay :
    (∀ t, (relay.listening State.sequential).Source 0 t → t = 10) ∧
    (∀ t, (relay.listening State.sequential).Source 2 t → t = 9) ∧
    ∀ e, (relay.listening State.sequential).step 8 ≠ .error e := by
  have h := single_resumption (relay.listening_reachable State.sequential_spec)
  -- the token that the event holds, and the completion token that process 1 holds
  have h10 : (relay.listening State.sequential).Source 0 10 :=
    ⟨.inr (.inl ⟨0, by decide +kernel⟩), by decide +kernel, by decide +kernel⟩
  have h9 : (relay.listening State.sequential).Source 2 9 :=
    ⟨.inr (.inr (.inl ⟨1, by decide +kernel⟩)), by decide +kernel, by decide +kernel⟩
  exact ⟨fun t ht => h.1 0 t 10 ht h10, fun t ht => h.1 2 t 9 ht h9,
    fun e => h.2.2.2 8 e (by decide +kernel)⟩

end Cxxdes
