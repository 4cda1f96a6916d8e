-- SUMMARY: A bound process has one start token, and begins when it is executed, at the time it was bound plus its latency.
import Cxxdes.Run.Clock
import Cxxdes.Run.Leftovers
import Cxxdes.Run.Trace

/-!
# Beginnings

`Begun` says what the history of a run tells about the beginning of each process,
and where its start token is. It is kept by the pieces every transition is made of:
awaiting, the change of a body's status, the end of a body, and `step()`.
-/

namespace Cxxdes

variable {P : Program} {s s' : State P}

/-! ### The beginning of a process -/

/-- The start token `t` of process `c`, which was bound at `n`, is pending. -/
structure State.StartPending (s : State P) (c : CoroId) (t : TokenId) (n : Int) : Prop where
  initial : ∃ f, (s.coros c).status = .initial f
  notStarted : s.startedAt c = []
  pending : t ∈ s.queue
  time : (s.tokens t).time = n + (s.coros c).latency
  coroData : (s.tokens t).coroData = some c
  handler : (s.tokens t).handler = none

/-- Process `c` was bound at `n`, and has begun when its start token was executed. -/
structure State.HasStarted (s : State P) (c : CoroId) (t : TokenId) (n : Int) : Prop where
  begun : ∀ f, (s.coros c).status ≠ .initial f
  started : s.startedAt c = [n + (s.coros c).latency]
  executed : t ∈ s.executed

/-- Process `c` has one start token, and begins when it is executed. -/
def State.Begins (s : State P) (c : CoroId) : Prop :=
  ∃ n t, s.boundAt c = [n] ∧ (s.coros c).startToken = some t ∧
    (s.StartPending c t n ∨ s.HasStarted c t n)

/-- A process begins once, after it is bound. -/
structure Begun (s : State P) : Prop where
  unbound : ∀ c, (s.coros c).env ≠ .here → s.boundAt c = [] ∧ s.startedAt c = []
  bound : ∀ c, (s.coros c).env = .here → s.Begins c

/-- What the beginning of process `c` depends on. -/
theorem State.Begins.keep {c : CoroId} (h : s.Begins c) (hb : s'.boundAt c = s.boundAt c)
    (hst : s'.startedAt c = s.startedAt c)
    (htkn : (s'.coros c).startToken = (s.coros c).startToken)
    (hlat : (s'.coros c).latency = (s.coros c).latency)
    (hstatus : (s'.coros c).status = (s.coros c).status ∨
      ∀ f, (s.coros c).status ≠ .initial f ∧ (s'.coros c).status ≠ .initial f)
    (hpend : ∀ t n, s.StartPending c t n → t ∈ s'.queue ∧ s'.tokens t = s.tokens t)
    (hex : ∀ t ∈ s.executed, t ∈ s'.executed) : s'.Begins c := by
  obtain ⟨n, t, hn, ht, hor⟩ := h
  refine ⟨n, t, hb.trans hn, htkn.trans ht, ?_⟩
  rcases hor with hp | hs
  · obtain ⟨hq, htok⟩ := hpend t n hp
    obtain ⟨f, hf⟩ := hp.initial
    refine .inl ⟨⟨f, ?_⟩, hst.trans hp.notStarted, hq, ?_, by rw [htok, hp.coroData],
      by rw [htok, hp.handler]⟩
    · rcases hstatus with h3 | h3
      · exact h3.trans hf
      · exact absurd hf (h3 f).1
    · rw [htok, hp.time, hlat]
  · refine .inr ⟨fun f => ?_, ?_, hex t hs.executed⟩
    · rcases hstatus with h3 | h3
      · rw [h3]; exact hs.begun f
      · exact (h3 f).2
    · rw [hst, hs.started, hlat]

theorem Kept.startPending (h : Kept s s') (c : CoroId) (t : TokenId) (n : Int)
    (hp : s.StartPending c t n) : t ∈ s'.queue ∧ s'.tokens t = s.tokens t :=
  ⟨h.queue t hp.pending, h.token t hp.pending⟩

namespace Begun

/-- What the beginnings of processes depend on. -/
theorem keep (h : Begun s) (hb : ∀ c, s'.boundAt c = s.boundAt c)
    (hst : ∀ c, s'.startedAt c = s.startedAt c)
    (henv : ∀ c, (s'.coros c).env = .here ↔ (s.coros c).env = .here)
    (hco : ∀ c, (s.coros c).env = .here → (s'.coros c).startToken = (s.coros c).startToken ∧
      (s'.coros c).latency = (s.coros c).latency ∧
      ((s'.coros c).status = (s.coros c).status ∨
        ∀ f, (s.coros c).status ≠ .initial f ∧ (s'.coros c).status ≠ .initial f))
    (hpend : ∀ c t n, s.StartPending c t n → t ∈ s'.queue ∧ s'.tokens t = s.tokens t)
    (hex : ∀ t ∈ s.executed, t ∈ s'.executed) : Begun s' where
  unbound c hne := by
    rw [hb, hst]
    exact h.unbound c fun hc => hne ((henv c).mpr hc)
  bound c hc := by
    have hc0 := (henv c).mp hc
    obtain ⟨h1, h2, h3⟩ := hco c hc0
    exact (h.bound c hc0).keep (hb c) (hst c) h1 h2 h3 (hpend c) hex

theorem init (m : P.Memory) : Begun (State.init m : State P) where
  unbound _ _ := ⟨rfl, rfl⟩
  bound _ h := by cases h

/-- Awaiting: a process that is bound gets its start token. -/
theorem edit {cd : Option CoroId} {n : TokenId} {nn : Prop} (h : Begun s) (hs : Sound s)
    (he : Edit cd n nn s s') (hn : s'.nextToken ≤ n) : Begun s' := by
  obtain ⟨gone, own, ho⟩ := hs.owned
  have hx := he.ext
  have hpend := (ho.kept_edits (.single he) (hx.nextToken.trans hn)).startPending
  have hco : ∀ c, (s.coros c).env = .here → (s'.coros c).startToken = (s.coros c).startToken ∧
      (s'.coros c).latency = (s.coros c).latency ∧
      ((s'.coros c).status = (s.coros c).status ∨
        ∀ f, (s.coros c).status ≠ .initial f ∧ (s'.coros c).status ≠ .initial f) := by
    intro c hc
    have h1 := hx.coro c (hs.tidy.fresh.lt (by simp [hc]))
    exact ⟨(h1.bound (by simp [hc])).2.1, h1.latency, .inl h1.status⟩
  have hex : ∀ t ∈ s.executed, t ∈ s'.executed := fun t ht => by rwa [hx.executed]
  have hkeep : s'.trace = s.trace → (∀ c, (s'.coros c).env = .here ↔ (s.coros c).env = .here) →
      Begun s' := fun htr henv =>
    h.keep (fun c => congrArg (List.filterMap _) htr) (fun c => congrArg (List.filterMap _) htr)
      henv hco hpend hex
  have hsame : ∀ {c0 : CoroId} {d : CoroData P}, d.env = (s.coros c0).env →
      ∀ c, (Function.update s.coros c0 d c).env = .here ↔ (s.coros c).env = .here := by
    intro c0 d hd c
    by_cases hc : c = c0
    · subst hc; rw [Function.update_self, hd]
    · rw [Function.update_of_ne hc]
  cases he with
  | newCoro f o =>
      refine hkeep rfl fun c => ?_
      by_cases hc : c = s.nextCoro
      · subst hc
        have h0 := hs.tidy.fresh s.nextCoro (Nat.le_refl _)
        simp [State.newCoro, CoroData.called, h0]
      · simp [State.newCoro, Function.update_of_ne hc]
  | startCoro c0 priority henv =>
      obtain ⟨hb0, hs0⟩ := h.unbound c0 (by simp [henv])
      obtain ⟨f0, hf0⟩ := (hs.wired.unbound c0 henv).2
      have hlog : s.Logs [.bound c0 s.now] (s.startCoro c0 priority) := rfl
      have hstarted : ∀ c, (s.startCoro c0 priority).startedAt c = s.startedAt c := fun c => by
        rw [hlog.startedAt]; exact List.append_nil _
      have hother : ∀ c ≠ c0, (s.startCoro c0 priority).coros c = s.coros c := fun c hc =>
        Function.update_of_ne hc _ _
      have hbound : ∀ c ≠ c0, (s.startCoro c0 priority).boundAt c = s.boundAt c := fun c hc => by
        rw [hlog.boundAt]
        simp [Obs.boundAt, hc.symm]
      refine ⟨fun c hne => ?_, fun c hc => ?_⟩
      · have hc0 : c ≠ c0 := by
          rintro rfl
          exact hne (by simp [State.startCoro, State.log, State.scheduleToken, State.newToken,
            State.setCoro, CoroData.started])
        rw [hother c hc0] at hne
        rw [hbound c hc0, hstarted]
        exact h.unbound c hne
      · by_cases hc0 : c = c0
        · -- the start token is scheduled at `now` plus the latency
          subst hc0
          refine ⟨s.now, s.nextToken, ?_, ?_, .inl ⟨⟨f0, ?_⟩, (hstarted c).trans hs0, ?_, ?_, ?_,
            ?_⟩⟩
          · rw [hlog.boundAt, hb0]; simp [Obs.boundAt]
          all_goals simp [State.startCoro, State.log, State.scheduleToken, State.newToken,
            State.setCoro, CoroData.started, hf0]
        · have hd := hother c hc0
          rw [hd] at hc
          obtain ⟨h1, h2, h3⟩ := hco c hc
          exact (h.bound c hc).keep (hbound c hc0) (hstarted c) h1 h2 h3 (hpend c) hex
  | newCompletion p cd' =>
      exact hkeep rfl (hsame (d := (s.coros p.coro).completionToken s.nextToken) rfl)
  | wake evt =>
      exact hkeep (by simp [State.wake]) fun c => by simp [State.wake]
  | timeout | newWaiter | newHandler | install | setObject => exact hkeep rfl fun c => Iff.rfl

theorem edits {n : TokenId} {nn : Prop} (h : Begun s) (hs : Sound s)
    (he : Edits none n nn s s') (hn : s'.nextToken ≤ n) : Begun s' := by
  induction he with
  | refl => exact h
  | tail he he1 ih =>
      exact (ih (he1.ext.nextToken.trans hn)).edit (hs.edits (by simp) he) he1 hn

/-- Only processes that are bound here change, and none begins. -/
theorem update {c : CoroId} {d : CoroData P} (h : Begun s) (hk : Kept s s')
    (hlog : (∀ c, s'.boundAt c = s.boundAt c) ∧ ∀ c, s'.startedAt c = s.startedAt c)
    (hco : s'.coros = Function.update s.coros c d) (henv : d.env = (s.coros c).env)
    (htkn : d.startToken = (s.coros c).startToken) (hlat : d.latency = (s.coros c).latency)
    (hst : ∀ f, (s.coros c).status ≠ .initial f ∧ d.status ≠ .initial f) : Begun s' := by
  refine h.keep hlog.1 hlog.2 (fun c' => ?_) (fun c' _ => ?_) hk.startPending
    fun t ht => by rwa [hk.executed]
  · rw [hco]
    by_cases hc : c' = c
    · subst hc; rw [Function.update_self, henv]
    · rw [Function.update_of_ne hc]
  · rw [hco]
    by_cases hc : c' = c
    · subst hc; rw [Function.update_self]; exact ⟨htkn, hlat, .inr hst⟩
    · rw [Function.update_of_ne hc]; exact ⟨rfl, rfl, .inl rfl⟩

theorem suspends {cd : Option CoroId} {n : TokenId} {nn : Prop} (h : Begun s) (hs : Sound s)
    (he : Edits cd n nn s s') (hn : s.nextToken ≤ n) (hsus : Suspends s s') : Begun s' := by
  obtain ⟨gone, own, ho⟩ := hs.owned
  have hk := ho.kept_edits he hn
  refine h.keep (fun c => congrArg (List.filterMap _) hsus.trace)
    (fun c => congrArg (List.filterMap _) hsus.trace) (fun c => ?_) (fun c _ => ?_)
    hk.startPending fun t ht => by rwa [hk.executed]
  · rw [hsus.coro c]
  · rw [hsus.coro c]; exact ⟨rfl, rfl, .inl rfl⟩

end Begun

/-! ### Entries that say nothing about beginnings -/

/-- An entry about the end of a body, a resumption or a result. -/
def Obs.Later {V E : Type} : Obs V E → Prop
  | .bound _ _ => False
  | .started _ _ => False
  | _ => True

theorem State.Logs.later {os : List (Obs P.Value P.Error)} (h : s.Logs os s')
    (hos : ∀ o ∈ os, o.Later) :
    (∀ c, s'.boundAt c = s.boundAt c) ∧ ∀ c, s'.startedAt c = s.startedAt c := by
  refine ⟨fun c => ?_, fun c => ?_⟩
  · rw [h.boundAt, List.filterMap_eq_nil_iff.mpr, List.append_nil]
    intro o ho
    have hl := hos o ho
    cases o with
    | bound => exact hl.elim
    | started | waiting | resumed | result | returned | raised => rfl
  · rw [h.startedAt, List.filterMap_eq_nil_iff.mpr, List.append_nil]
    intro o ho
    have hl := hos o ho
    cases o with
    | started => exact hl.elim
    | bound | waiting | resumed | result | returned | raised => rfl

theorem Awaitable.waiting_later {U V E : Type} {c : CoroId} {now : Int} (a : Awaitable U)
    (o : Obs V E) (ho : o ∈ a.waiting c now) : o.Later := by
  unfold Awaitable.waiting at ho
  split at ho
  · obtain rfl := List.mem_singleton.mp ho
    trivial
  · cases ho

/-- The tokens that a process releases at its end were not pending. -/
theorem Closes.kept {c : CoroId} {r : Result P.Value P.Error} (h : Closes c r s s')
    {gone : List TokenId} {own : TokenId → Owner} (ho : Owned gone s own) : Kept s s' where
  now := h.now
  executed := h.executed
  queue t ht := by rw [h.queue]; exact List.mem_append_left _ ht
  token t ht := h.token t (ho.queue_notMem_completion ht c)

namespace Begun

theorem goes {c : CoroId} {f : P.Frame} {st : Status P} {os : List (Obs P.Value P.Error)}
    (h : Begun s) (hrun : (s.coros c).status = .running f) (hg : Goes c st os s s')
    (hst : ∀ f, st ≠ .initial f) (hos : ∀ o ∈ os, o.Later) : Begun s' :=
  h.update hg.quiet.kept (hg.logs.later hos) hg.coros rfl rfl rfl
    fun g => ⟨by simp [hrun], hst g⟩

theorem closes {c : CoroId} {f : P.Frame} {r : Result P.Value P.Error} (h : Begun s)
    (hs : Sound s) (hrun : (s.coros c).status = .running f) (hc : Closes c r s s') :
    Begun s' := by
  obtain ⟨gone, own, ho⟩ := hs.owned
  have hco : s'.coros = Function.update s.coros c (s'.coros c) := by
    funext c'
    by_cases hc' : c' = c
    · subst hc'; rw [Function.update_self]
    · rw [Function.update_of_ne hc', hc.coro c' hc']
  refine h.update (hc.kept ho) (hc.logs.later (by simp [Obs.Later])) hco ?_ ?_ ?_ fun g => ?_
  · rw [hc.self]
  · rw [hc.self]
  · rw [hc.self]
  · rw [hc.self]; exact ⟨by simp [hrun], by simp⟩

theorem passes {t : TokenId} (h : Begun s) (hs : Sound s) (hp : Passes t s s') : Begun s' := by
  obtain ⟨gone, own, ho⟩ := hs.owned
  obtain ⟨os, hlog, hos⟩ := hp.logs
  have hl := hlog.later fun o ho => by obtain ⟨e, n, rfl⟩ := hos o ho; trivial
  refine h.keep hl.1 hl.2 (fun c => by rw [hp.coros]) (fun c _ => by rw [hp.coros]; simp)
    (fun c u n hu => ?_) fun u hu => by rw [hp.executed]; exact List.mem_append_left _ hu
  -- a start token has no handler and names a process
  have hne : u ≠ t := by
    rintro rfl
    rcases hp.handled with h1 | h1
    · exact h1 hu.handler
    · rw [hu.coroData] at h1; cases h1
  refine ⟨hp.queue u ((List.mem_erase_of_ne hne).mpr hu.pending), hp.token u fun i hi => ?_⟩
  have h1 := ho.output i u hi
  rw [ho.queue u hu.pending] at h1
  cases h1

theorem resumes {t : TokenId} {c : CoroId} {f : P.Frame} {a : Awaitable P.User}
    {k : Result P.Value P.Error → P.Frame} {os : List (Obs P.Value P.Error)} (h : Begun s)
    (hst : (s.coros c).status = .suspended a k) (he : Enters t c f os s s')
    (hos : ∀ o ∈ os, o.Later) : Begun s' := by
  have hl := he.logs.later hos
  have hstart : ∀ c' u n, s.StartPending c' u n → c' ≠ c := by
    rintro c' u n hu rfl
    obtain ⟨g, hg⟩ := hu.initial
    rw [hst] at hg
    cases hg
  have hother : ∀ c' ≠ c, s'.coros c' = s.coros c' := fun c' hc => by
    rw [he.coros, Function.update_of_ne hc]
  refine h.keep hl.1 hl.2 (fun c' => ?_) (fun c' _ => ?_) (fun c' u n hu => ⟨?_, by rw [he.tokens]⟩)
    fun u hu => by rw [he.executed]; exact List.mem_append_left _ hu
  · by_cases hc : c' = c
    · subst hc; rw [he.coros, Function.update_self]
    · rw [hother c' hc]
  · by_cases hc : c' = c
    · subst hc
      rw [he.coros, Function.update_self]
      exact ⟨rfl, rfl, .inr fun g => ⟨by simp [hst], by simp⟩⟩
    · rw [hother c' hc]; exact ⟨rfl, rfl, .inl rfl⟩
  · rw [he.queue]
    refine (List.mem_erase_of_ne fun hut => ?_).mpr hu.pending
    have h1 := hu.coroData
    rw [hut, he.coroData] at h1
    exact hstart c' u n hu (Option.some.inj h1).symm

/-- The body begins when its start token is executed. -/
theorem starts {t : TokenId} {c : CoroId} {f : P.Frame} (h : Begun s) (hs : SingleBut s.Past s)
    (ht : t ∈ s.queue) (hnow : (s.pop t).now = (s.tokens t).time)
    (hst : (s.coros c).status = .initial f) (he : Enters t c f [.started c s'.now] s s') :
    Begun s' := by
  have hsrc : ∀ {u}, u ∈ s.queue → (s.tokens u).handler = none →
      (s.tokens u).coroData = some c → (s.coros c).startToken = some u := by
    intro u hq hh hc
    have h1 := hs.answers hq hh hc (by simp [hst])
    unfold State.Answers at h1
    rwa [hst] at h1
  have henv : (s.coros c).env = .here := hs.sound.started.token t c he.coroData
  have hbound : ∀ c', s'.boundAt c' = s.boundAt c' := fun c' => by
    rw [he.logs.boundAt]; exact List.append_nil _
  have hother : ∀ c' ≠ c, s'.coros c' = s.coros c' ∧ s'.startedAt c' = s.startedAt c' := by
    intro c' hc
    refine ⟨by rw [he.coros, Function.update_of_ne hc], ?_⟩
    rw [he.logs.startedAt]
    simp [Obs.startedAt, hc.symm]
  have hex : ∀ u ∈ s.executed, u ∈ s'.executed := fun u hu => by
    rw [he.executed]; exact List.mem_append_left _ hu
  refine ⟨fun c' hne => ?_, fun c' hc' => ?_⟩
  · by_cases hc : c' = c
    · subst hc
      rw [he.coros, Function.update_self] at hne
      exact absurd henv hne
    · obtain ⟨h1, h2⟩ := hother c' hc
      rw [h1] at hne
      rw [hbound, h2]
      exact h.unbound c' hne
  · by_cases hc : c' = c
    · subst hc
      obtain ⟨n, u, hn, hu, hor⟩ := h.bound c' henv
      have hp : s.StartPending c' u n := hor.resolve_right fun hb => hb.begun f hst
      have hut : u = t := by
        have h1 := hsrc ht he.handler he.coroData
        rw [hu] at h1
        exact Option.some.inj h1
      subst hut
      refine ⟨n, u, (hbound c').trans hn, ?_, .inr ⟨fun g => ?_, ?_, ?_⟩⟩
      · rw [he.coros, Function.update_self]; exact hu
      · rw [he.coros, Function.update_self]; simp
      · rw [he.logs.startedAt, hp.notStarted, he.now, hnow, hp.time, he.coros,
          Function.update_self]
        simp [Obs.startedAt]
      · rw [he.executed]; simp
    · obtain ⟨h1, h2⟩ := hother c' hc
      rw [h1] at hc'
      refine (h.bound c' hc').keep (hbound c') h2 (by rw [h1]) (by rw [h1]) (.inl (by rw [h1]))
        (fun u n hu => ⟨?_, by rw [he.tokens]⟩) hex
      rw [he.queue]
      refine (List.mem_erase_of_ne fun hut => ?_).mpr hu.pending
      have h3 := hu.coroData
      rw [hut, he.coroData] at h3
      exact hc (Option.some.inj h3).symm

theorem elsewhere {c : CoroId} (h : Begun s) (henv : (s.coros c).env = .unbound) :
    Begun (s.setCoro c { s.coros c with env := .elsewhere }) := by
  have hother : ∀ c' ≠ c, (s.setCoro c { s.coros c with env := .elsewhere }).coros c' =
      s.coros c' := fun c' hc => Function.update_of_ne hc _ _
  refine h.keep (fun _ => rfl) (fun _ => rfl) (fun c' => ?_) (fun c' hc' => ?_)
    (fun _ _ _ hp => ⟨hp.pending, rfl⟩) fun _ ht => ht
  · by_cases hc : c' = c
    · subst hc; simp [State.setCoro, henv]
    · rw [hother c' hc]
  · have hc : c' ≠ c := by rintro rfl; rw [henv] at hc'; cases hc'
    rw [hother c' hc]
    exact ⟨rfl, rfl, .inl rfl⟩

end Begun

end Cxxdes
