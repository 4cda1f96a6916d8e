-- SUMMARY: In every run without exceptions, a control-flow expression and a process take exactly their durations.
import Cxxdes.Timing.Steps
import Cxxdes.Run.Delivery

/-!
# Durations

What is expected when a process awaits an expression, or when a process is bound, is upheld by
every transition. So in every run the process is resumed, or ends, at the time that the tree gives,
whatever else runs in the environment; until then the clock does not pass that time.
-/

namespace Cxxdes

variable {P : Program} {s s' s1 s2 : State P} {c : CoroId} {t : TokenId} {l : Label P} {n : Int}

/-! ### What the trace records -/

/-- A transition records only that its token resumes a process, and that its process returns. -/
theorem Step.Plainly.records (h : Step.Plainly s l s') :
    (∀ t, l ≠ .step t → s'.resumedBy t = s.resumedBy t) ∧
    ∀ c, ¬ s.Ends c l → s'.returnedAs c = s.returnedAs c := by
  have hstep := h.step
  have hs := h.single.sound
  cases hstep with
  | call | elsewhere | advance => exact ⟨fun _ _ => rfl, fun _ _ => rfl⟩
  | bind a =>
      have he : Edits none 0 False s (s.bind a) := bind_call_edits hs.tidy a fun hf => hf.elim
      have hq := Edits.quietly he
      exact ⟨fun t _ => hq.resumedBy t, fun c _ => hq.returnedAs c⟩
  | step u _ htop hst =>
      cases (step_stepped hst).did with
      | passes hp =>
          obtain ⟨os, hlog, hos⟩ := hp.logs
          obtain ⟨hret, hres⟩ := hlog.control fun o ho => by
            obtain ⟨e, m, rfl⟩ := hos o ho
            trivial
          exact ⟨fun t _ => hres t, fun c _ => hret c⟩
      | starts d f _ he =>
          obtain ⟨hret, hres⟩ := he.logs.control (by simp [Obs.Control])
          exact ⟨fun t _ => hres t, fun c _ => hret c⟩
      | resumes d a k r _ _ he =>
          refine ⟨fun t hne => ?_, fun c _ => ?_⟩
          · have hut : u ≠ t := fun heq => hne (by rw [heq])
            rw [he.logs.resumedBy]
            simp [Obs.resumedBy, hut]
          · rw [he.logs.returnedAs]
            simp [Obs.returnedAs]
  | exec d _ hex =>
      obtain ⟨f, hst, hdid⟩ := exec_did hs.tidy hex fun _ _ hf => hf.elim
      cases hdid with
      | goes s1 _ g he hg =>
          have hq := (he 0).quietly
          obtain ⟨hret, hres⟩ := hg.logs.control (by simp)
          exact ⟨fun t _ => (hres t).trans (hq.resumedBy t),
            fun c _ => (hret c).trans (hq.returnedAs c)⟩
      | result a k s1 target r hact he =>
          have hq := (he 0).quietly
          obtain ⟨hret, hres⟩ := (Goes.deliver s1 d target k r).logs.control (by simp [Obs.Control])
          exact ⟨fun t _ => (hres t).trans (hq.resumedBy t),
            fun c _ => (hret c).trans (hq.returnedAs c)⟩
      | throws a k sm s1 e hact hthrow =>
          rw [h.free.sequential f a k hst hact] at hthrow
          cases hthrow
      | moved o k r =>
          obtain ⟨hret, hres⟩ :=
            (Goes.moved (s.ran f) d o (some ((s.ran f).objects o).1.coro) _ r).logs.control
              (by simp [Obs.Control])
          exact ⟨fun t _ => hres t, fun c _ => hret c⟩
      | suspends a a' k sm s1 hact hm he =>
          have hq := (hm 0).quietly
          have hq' := Edits.quietly he
          obtain ⟨hret, hres⟩ :=
            (Goes.suspend s1 d a' k).logs.control (Awaitable.waiting_control a')
          exact ⟨fun t _ => ((hres t).trans (hq'.resumedBy t)).trans (hq.resumedBy t),
            fun c _ => ((hret c).trans (hq'.returnedAs c)).trans (hq.returnedAs c)⟩
      | returns v hact =>
          obtain ⟨w, hcl, -⟩ := h.step.closes hs ⟨f, v, rfl, hst, hact⟩
          refine ⟨fun t _ => ?_, fun c hno => ?_⟩
          · rw [hcl.logs.resumedBy]
            simp [Obs.resumedBy]
          · have hne : d ≠ c := fun heq => hno (by
              subst heq
              exact ⟨f, v, rfl, hst, hact⟩)
            rw [hcl.logs.returnedAs]
            simp [Obs.returnedAs, hne]
      | fails e hact => exact absurd hact (h.free.returns d f e rfl hst)
  | reset => exact h.free.sequential.elim

/-- A token that has resumed a process has been executed, and a process that has returned is
complete. -/
structure State.Recorded (s : State P) : Prop where
  resumed : ∀ t, s.resumedBy t ≠ [] → t ∈ s.executed
  returned : ∀ c, s.returnedAs c ≠ [] → c < s.nextCoro ∧ (s.coros c).status = .finished

theorem Step.Plainly.recorded (h : Step.Plainly s l s') (hr : s.Recorded) : s'.Recorded := by
  obtain ⟨hres, hret⟩ := h.records
  refine ⟨fun t ht => ?_, fun c hc => ?_⟩
  · by_cases hl : l = .step t
    · exact h.executed.mpr (.inr hl)
    · rw [hres t hl] at ht
      exact h.executed.mpr (.inl (hr.resumed t ht))
  · by_cases he : s.Ends c l
    · obtain ⟨v, hcl, -⟩ := h.step.closes h.single.sound he
      obtain ⟨f, hf⟩ := he.running
      have hlt := h.single.sound.tidy.fresh.lt_of_status (c := c) (by simp [hf])
      exact ⟨by rw [hcl.nextCoro]; exact hlt, by rw [hcl.self]⟩
    · rw [hret c he] at hc
      obtain ⟨hlt, hfin⟩ := hr.returned c hc
      have hkept := h.step.coroKept h.single.sound h.free hlt fun f v _ hst => by
        rw [hfin] at hst
        cases hst
      exact ⟨Nat.lt_of_lt_of_le hlt (h.step.nextCoro_le h.single.sound h.free.ne_reset),
        hkept.finished hfin⟩

/-- What holds in every state of a run without exceptions. -/
structure Untroubled (s : State P) : Prop where
  single : Single s
  unraised : s.Unraised
  ordered : s.Ordered
  recorded : s.Recorded

theorem Untroubled.plainly (h : Untroubled s) (hl : ExceptionFree s l) (hstep : Step s l s') :
    Step.Plainly s l s' :=
  ⟨hstep, h.single, h.unraised, h.ordered, hl⟩

theorem Untroubled.step (h : Untroubled s) (hl : ExceptionFree s l) (hstep : Step s l s') :
    Untroubled s' where
  single := hstep.single hl.sequential h.single
  unraised := hstep.unraised h.single.sound hl h.unraised
  ordered := hstep.ordered h.single.sound hl h.unraised h.ordered
  recorded := (h.plainly hl hstep).recorded h.recorded

theorem Untroubled.init (m : P.Memory) : Untroubled (State.init m : State P) where
  single := .init m
  unraised _ := rfl
  ordered := ⟨rfl, fun _ => rfl⟩
  recorded := ⟨fun _ h => absurd rfl h, fun _ h => absurd rfl h⟩

theorem Untroubled.runs (h : Untroubled s) (hr : Transition.Runs Step ExceptionFree s s') :
    Untroubled s' :=
  hr.invariant (fun _ _ _ h hl hstep => h.step hl hstep) h

theorem Reachable.untroubled (h : Reachable ExceptionFree s) : Untroubled s := by
  obtain ⟨m, h⟩ := h
  exact (Untroubled.init m).runs h

/-! ### Occurrences in runs -/

/-- The clock has not passed `n`, and while no body runs there is something left to do by then. -/
structure State.DueBy (s : State P) (n : Int) : Prop where
  now_le : s.now ≤ n
  pending : s.current = none → ∃ u ∈ s.queue, (s.tokens u).time ≤ n

theorem State.Expects.due {o : Occurrence} (h : s.Expects o n) (hs : Single s) : s.DueBy n where
  now_le := h.now_le
  pending hcur := h.exists_due fun c f hst => by
    have hc := hs.running c f hst
    rw [hcur] at hc
    cases hc

/-- Process `c` waits for token `t`, which is expected at time `n`. -/
structure State.WaitsUntil (s : State P) (c : CoroId) (a : Awaitable P.User)
    (k : Result P.Value P.Error → P.Frame) (t : TokenId) (n : Int) : Prop where
  waits : s.WaitsIn c a k t
  expects : s.Expects (.fires t) n
  silent : s.resumedBy t = []

/-- The token of a suspended process resumes it. -/
theorem Step.Plainly.resumedBy (h : Step.Plainly s (.step t) s') {a : Awaitable P.User}
    {k : Result P.Value P.Error → P.Frame} (hst : (s.coros c).status = .suspended a k)
    (hh : (s.tokens t).handler = none) (hcd : (s.tokens t).coroData = some c)
    (hsilent : s.resumedBy t = []) : s'.resumedBy t = [(c, s'.now)] := by
  obtain ⟨-, hstepped, hnow⟩ := h.step.popped h.single.sound
  cases hstepped.did with
  | resumes d a' k' r _ _ he =>
      obtain rfl : c = d := Option.some.inj (hcd.symm.trans he.coroData)
      rw [he.logs.resumedBy, hsilent, hnow]
      simp [Obs.resumedBy]
  | starts d f hst' he =>
      obtain rfl : c = d := Option.some.inj (hcd.symm.trans he.coroData)
      rw [hst] at hst'
      cases hst'
  | passes he =>
      cases he.handled with
      | inl hh' => exact absurd hh hh'
      | inr hc =>
          rw [hcd] at hc
          cases hc

/-- A token that is executed resumes the process that waits for it, on time. -/
theorem State.WaitsUntil.resumed {a : Awaitable P.User} {k : Result P.Value P.Error → P.Frame}
    (h : s.WaitsUntil c a k t n) (hp : Step.Plainly s (.step t) s') :
    s'.now = n ∧ s'.resumedBy t = [(c, n)] ∧ ∃ v, (s'.coros c).status = .running (k (.ok v)) := by
  obtain ⟨hq, hst, hnow⟩ := hp.step.popped hp.single.sound
  have htime := h.expects.time hp.single.sound hq
  have hle := h.expects.now_le
  have hmax : s'.now = n := by omega
  have hby := hp.resumedBy h.waits.status h.waits.handler h.waits.coroData h.silent
  rw [hmax] at hby
  exact ⟨hmax, hby, h.waits.resumes hst hp.single.sound hp.unraised hq⟩

/-- The process waits, or it has been resumed at time `n`. -/
def State.WaitedFor (s : State P) (c : CoroId) (a : Awaitable P.User)
    (k : Result P.Value P.Error → P.Frame) (t : TokenId) (n : Int) : Prop :=
  s.WaitsUntil c a k t n ∨ (t ∈ s.executed ∧ s.resumedBy t = [(c, n)])

theorem Step.Plainly.waitedFor {a : Awaitable P.User} {k : Result P.Value P.Error → P.Frame}
    (h : Step.Plainly s l s') (hw : s.WaitedFor c a k t n) : s'.WaitedFor c a k t n := by
  obtain ⟨hres, -⟩ := h.records
  cases hw with
  | inl hw =>
      by_cases hl : l = .step t
      · subst hl
        exact .inr ⟨h.executed.mpr (.inr rfl), (hw.resumed h).2.1⟩
      · exact .inl ⟨h.waitsIn hw.waits hw.expects hl, h.upholds hw.expects hl,
          (hres t hl).trans hw.silent⟩
  | inr hw =>
      obtain ⟨hex, hw⟩ := hw
      have hl : l ≠ .step t := by
        rintro rfl
        obtain ⟨gone, own, ho⟩ := h.single.sound.owned
        exact ho.executed_notLive (ho.executed t hex) (.inl (h.step.popped h.single.sound).1)
      exact .inr ⟨h.executed.mpr (.inl hex), (hres t hl).trans hw⟩

theorem State.WaitedFor.runs {a : Awaitable P.User} {k : Result P.Value P.Error → P.Frame}
    (hw : s.WaitedFor c a k t n) (h : Untroubled s)
    (hr : Transition.Runs Step ExceptionFree s s') : Untroubled s' ∧ s'.WaitedFor c a k t n := by
  refine hr.invariant (I := fun s => Untroubled s ∧ s.WaitedFor c a k t n) ?_ ⟨h, hw⟩
  rintro s l s' ⟨h, hw⟩ hl hstep
  exact ⟨h.step hl hstep, (h.plainly hl hstep).waitedFor hw⟩

/-- Process `c` is going to return at time `n`, or has returned then. -/
def State.EndsAt (s : State P) (c : CoroId) (n : Int) : Prop :=
  (s.Expects (.ends c) n ∧ s.returnedAs c = []) ∨
    (c < s.nextCoro ∧ (s.coros c).status = .finished ∧ ∃ v, s.returnedAs c = [(.ok v, n)])

theorem Step.Plainly.endsAt (h : Step.Plainly s l s') (he : s.EndsAt c n) : s'.EndsAt c n := by
  obtain ⟨-, hret⟩ := h.records
  cases he with
  | inl he =>
      obtain ⟨hexp, hnone⟩ := he
      cases h.upholds hexp with
      | inl hends =>
          obtain ⟨hends, rfl⟩ := hends
          obtain ⟨v, hcl, -⟩ := h.step.closes h.single.sound hends
          obtain ⟨f, hf⟩ := hends.running
          have hlt := h.single.sound.tidy.fresh.lt_of_status (c := c) (by simp [hf])
          refine .inr ⟨by rw [hcl.nextCoro]; exact hlt, by rw [hcl.self], v, ?_⟩
          rw [hcl.logs.returnedAs, hnone]
          simp [Obs.returnedAs]
      | inr hgoes => exact .inl ⟨hgoes.2, (hret c hgoes.1).trans hnone⟩
  | inr he =>
      obtain ⟨hlt, hfin, v, hv⟩ := he
      have hkept := h.step.coroKept h.single.sound h.free hlt fun f v _ hst => by
        rw [hfin] at hst
        cases hst
      have hno : ¬ s.Ends c l := Step.Plainly.not_ends (by simp [hfin])
      exact .inr ⟨Nat.lt_of_lt_of_le hlt (h.step.nextCoro_le h.single.sound h.free.ne_reset),
        hkept.finished hfin, v, (hret c hno).trans hv⟩

theorem State.EndsAt.runs (he : s.EndsAt c n) (h : Untroubled s)
    (hr : Transition.Runs Step ExceptionFree s s') : Untroubled s' ∧ s'.EndsAt c n := by
  refine hr.invariant (I := fun s => Untroubled s ∧ s.EndsAt c n) ?_ ⟨h, he⟩
  rintro s l s' ⟨h, he⟩ hl hstep
  exact ⟨h.step hl hstep, (h.plainly hl hstep).endsAt he⟩

/-! ### The duration of an expression -/

/-- A `co_await` of an expression takes exactly the duration of the expression: the process runs on
at once when that is nothing, and otherwise its token is executed at that time and at no other, in
every run. -/
theorem await_takes_duration {e : Flow P.User} {f : P.Frame}
    {k : Result P.Value P.Error → P.Frame} (h : Reachable ExceptionFree s) (hfit : e.Fits P)
    (hst : (s.coros c).status = .running f) (hact : s.next f = .await e.awaitable k)
    (hl : ExceptionFree s (.exec c)) (hstep : Step s (.exec c) s1) :
    (e.dur s.now = 0 ∧ s1.now = s.now ∧ ∃ v, (s1.coros c).status = .running (k (.ok v))) ∨
    ∃ a t, (s1.coros c).status = .suspended a k ∧ a.token = some t ∧
      ∀ s2, Transition.Runs Step ExceptionFree s1 s2 →
        (((s2.coros c).status = .suspended a k ∧ s2.resumedBy t = [] ∧
            s2.DueBy (s.now + e.dur s.now)) ∨
          s2.resumedBy t = [(c, s.now + e.dur s.now)]) ∧
        ∀ s3, ExceptionFree s2 (.step t) → Step s2 (.step t) s3 →
          s3.now = s.now + e.dur s.now ∧ ∃ v, (s3.coros c).status = .running (k (.ok v)) := by
  have hu := h.untroubled
  have hu1 := hu.step hl hstep
  obtain ⟨gone, own, ho⟩ := hu.single.sound.owned
  have hnow : s1.now = s.now := (hstep.kept hu.single.sound.tidy (by simp) ho).now
  have hs0 : Sound (s.ran f) := hu.single.sound.quiet (.of_coros rfl) rfl rfl rfl
    hu.single.sound.started.current
  cases hstep with
  | exec _ _ hex =>
      obtain rfl : (s.ran f).coAwait c e.awaitable k = s1 :=
        Except.ok.inj
          ((State.exec_await hst hact (State.valid_of_exec hst hact hex)).symm.trans hex)
      cases coAwait_flow (s := s.ran f) hs0 hst (hu.single.running c f hst) hu.unraised hfit k
        (hl.sequential f e.awaitable k hst hact) with
      | inl hready =>
          obtain ⟨hready, sm, target, v, -, heq⟩ := hready
          refine .inl ⟨Flow.dur_of_ready hfit hready, hnow, v, ?_⟩
          rw [heq]
          simp [State.deliver, State.log, State.setStatus, State.setCoro]
      | inr hwaits =>
          obtain ⟨-, a, t, hw, hexp⟩ := hwaits
          refine .inr ⟨a, t, hw.status, hw.token, fun s2 hr => ?_⟩
          -- the token is still to be executed, so it has resumed nobody
          have hsilent : ((s.ran f).coAwait c e.awaitable k).resumedBy t = [] := by
            obtain ⟨gone1, own1, ho1⟩ := hu1.single.sound.owned
            exact Classical.byContradiction fun hne =>
              ho1.executed_notLive (ho1.executed t (hu1.recorded.resumed t hne)) hexp.live
          obtain ⟨hu2, hw2⟩ :=
            State.WaitedFor.runs (.inl ⟨hw, hexp, hsilent⟩) hu1 hr
          refine ⟨?_, fun s3 hl3 hstep3 => ?_⟩
          · cases hw2 with
            | inl hw2 =>
                exact .inl ⟨hw2.waits.status, hw2.silent, hw2.expects.due hu2.single⟩
            | inr hw2 => exact .inr hw2.2
          · have hp := hu2.plainly hl3 hstep3
            cases hw2 with
            | inl hw2 =>
                obtain ⟨hnow3, -, hrun⟩ := hw2.resumed hp
                exact ⟨hnow3, hrun⟩
            | inr hw2 =>
                obtain ⟨gone2, own2, ho2⟩ := hu2.single.sound.owned
                exact absurd (.inl (hstep3.popped hu2.single.sound).1)
                  (ho2.executed_notLive (ho2.executed t hw2.1))

/-! ### The duration of a process -/

/-- `bind` of a process that has not been bound. -/
theorem detach_unbound {p : Handle} {priority : Int} (hb : (s.coros p.coro).env = .unbound)
    (hinc : ((s.startCoro p.coro priority).coros p.coro).complete = false) :
    s.detach p priority = (.ok (), (s.startCoro p.coro priority).newCompletion p none) := by
  simp only [State.detach, State.bind_, hb, hinc]
  rfl

/-- `env.bind(f(...))`: the process is launched. -/
theorem bind_launched (hs : Sound s) {f : P.User} {o : Options} {body : List (Flow P.User)}
    (hfit : (Flow.process f o body).Fits P) :
    (s.bind (.call f o)).Launched s.nextCoro
      (s.now + o.latency + Flow.durSeq (s.now + o.latency) body) := by
  obtain ⟨hu, hlat, hret, hp, hbody⟩ := hfit
  let s0 := (s.newCoro (.user (P.start f)) o).startCoro s.nextCoro 0
  have he0 : Edits none 0 False s s0 :=
    (Relation.ReflTransGen.single (.newCoro (.user (P.start f)) o (.user f) fun hf => hf.elim)).tail
      (.startCoro s.nextCoro 0 (by simp [State.newCoro, CoroData.called]))
  have hs0 : Sound s0 := hs.edits (by simp) he0
  have hl0 := launched_call s (.user (P.start f)) o 0 hu hlat hp hbody
  have hinc : (s0.coros s.nextCoro).complete = false := by
    obtain ⟨g, t, es, hst, -⟩ := hl0.expects
    exact complete_of_status (by simp [s0, hst])
  have hunbound : ((s.newCoro (.user (P.start f)) o).coros s.nextCoro).env = .unbound := by
    simp [State.newCoro, CoroData.called]
  have heq : s.bind (.call f o) =
      s0.newCompletion ⟨s.nextCoro, o.retLatency, o.retPriority⟩ none :=
    congrArg Prod.snd (detach_unbound (p := ⟨s.nextCoro, o.retLatency, o.retPriority⟩)
      hunbound hinc)
  have he : Edits none s0.nextToken False s0 (s.bind (.call f o)) := by
    rw [heq]
    exact .single (.newCompletion _ none (.inl rfl) hl0.here.2 hinc fun hf => hf.elim)
  exact hl0.edits hs0 he (Nat.le_refl _)

/-- A process whose body awaits expressions one after the other returns exactly when they have
taken their durations, each from the end of the one before, in every run. -/
theorem process_takes_duration {f : P.User} {o : Options} {body : List (Flow P.User)}
    (h : Reachable ExceptionFree s) (hfit : (Flow.process f o body).Fits P)
    (hstep : Step s (.bind (.call f o)) s1) (hr : Transition.Runs Step ExceptionFree s1 s2) :
    ((s2.coros s.nextCoro).complete = false ∧ s2.returnedAs s.nextCoro = [] ∧
        s2.DueBy (s.now + o.latency + Flow.durSeq (s.now + o.latency) body)) ∨
      ∃ v, s2.returnedAs s.nextCoro =
        [(.ok v, s.now + o.latency + Flow.durSeq (s.now + o.latency) body)] := by
  have hu := h.untroubled
  have hl : ExceptionFree s (.bind (.call f o)) := by
    refine ⟨trivial, ?_, ?_⟩
    · intro c f e hc
      cases hc
    · intro deadline hd
      cases hd
  have hu1 := hu.step hl hstep
  obtain rfl : s.bind (.call f o) = s1 := by cases hstep; rfl
  have hexp := (bind_launched hu.single.sound hfit).ends
  have hnone : (s.bind (.call f o)).returnedAs s.nextCoro = [] :=
    Classical.byContradiction fun hne =>
      hexp.not_finished (hu1.recorded.returned s.nextCoro hne).2
  obtain ⟨hu2, he2⟩ := State.EndsAt.runs (.inl ⟨hexp, hnone⟩) hu1 hr
  cases he2 with
  | inl he2 =>
      obtain ⟨hexp2, hnone2⟩ := he2
      exact .inl ⟨complete_of_status hexp2.not_finished, hnone2, hexp2.due hu2.single⟩
  | inr he2 => exact .inr he2.2.2

/-- An `all_of` of a process with two timeouts, and of an `any_of`. -/
def plan : Flow Nat :=
  .comp .allOf 1 PriorityConsts.inherit
    [.process 2 { latency := 1 }
        [.delay 1 PriorityConsts.inherit, .until 4 PriorityConsts.inherit],
      .comp .anyOf 0 PriorityConsts.inherit
        [.delay 7 PriorityConsts.inherit, .delay 2 PriorityConsts.inherit]]

/-- Process 0 awaits the plan. Process 2 is the one in the plan. -/
def planner : Program where
  User := Nat
  Body := Nat
  Memory := Unit
  Value := Unit
  Error := Unit
  start := id
  next n m _ := (m, match n with
    | 0 => .await plan.awaitable fun _ => 1
    | 2 => .await (Flow.delay 1 PriorityConsts.inherit).awaitable fun _ => 3
    | 3 => .await (Flow.until 4 PriorityConsts.inherit).awaitable fun _ => 1
    | _ => .coReturn none)

namespace planner

def bound : State planner := (State.init ()).bind (.call (0 : Nat) {})

def started : State planner :=
  ({ bound.pop 0 with current := some 0 }.setStatus 0 (.running (.user (0 : Nat)))).log
    (.started 0 0)

def waiting : State planner := started.coAwait 0 plan.awaitable fun _ => .user (1 : Nat)

/-- The body has nothing left to await. -/
theorem performs_nil : Performs (P := planner) (.user (1 : Nat)) [] :=
  .next _ _ fun _ _ => .coReturn none

theorem performs_legs : Performs (P := planner) (.user (2 : Nat))
    [.delay 1 PriorityConsts.inherit, .until 4 PriorityConsts.inherit] :=
  .next _ _ fun _ _ => .await (.delay 1 PriorityConsts.inherit) _ _ fun _ =>
    .next _ _ fun _ _ => .await (.until 4 PriorityConsts.inherit) _ _ fun _ => performs_nil

theorem delay_fits {time priority : Int} (h : 0 ≤ time) :
    Flow.Fits planner (.delay time priority) := h

theorem plan_fits : Flow.Fits planner plan :=
  ⟨by decide, fun h => by (cases h),
    ⟨rfl, by decide, by decide, performs_legs, delay_fits (by decide), trivial, trivial⟩,
    ⟨by decide, fun _ h => by (cases h), delay_fits (by decide), delay_fits (by decide), trivial⟩,
    trivial⟩

theorem performs_plan : Performs (P := planner) (.user (0 : Nat)) [plan] :=
  .next _ _ fun _ _ => Acts.await (P := planner) plan [] (fun _ => .user (1 : Nat))
    fun _ => performs_nil

theorem started_step : Step bound (.step 0) started :=
  .step _ 0 _ (State.isTop_singleton rfl) rfl (by decide)

theorem started_free : ExceptionFree bound (.step 0) := .of_ne_exec (by simp) rfl (by simp)

theorem started_reachable : Reachable ExceptionFree started := by
  have hbind : ExceptionFree (State.init () : State planner) (.bind (.call (0 : Nat) {})) :=
    .of_ne_exec (by simp) trivial (by simp)
  have hbound : Reachable ExceptionFree bound :=
    (Reachable.init ()).next hbind (.bind _ _ rfl (by decide))
  exact hbound.next started_free started_step

theorem waiting_free : ExceptionFree started (.exec 0) := .of_await rfl rfl rfl

theorem waiting_runs : Transition.Runs Step ExceptionFree bound waiting :=
  ((Transition.Runs.refl bound).tail started_free started_step).tail waiting_free
    (.exec _ _ _ rfl (by decide))

end planner

theorem await_takes_duration_planner :
    ∃ a t, (planner.waiting.coros 0).status = .suspended a (fun _ => .user (1 : Nat)) ∧
      a.token = some t ∧ ∀ s2, Transition.Runs Step ExceptionFree planner.waiting s2 →
        (((s2.coros 0).status = .suspended a (fun _ => .user (1 : Nat)) ∧
            s2.resumedBy t = [] ∧ s2.DueBy 5) ∨ s2.resumedBy t = [(0, 5)]) ∧
        ∀ s3, ExceptionFree s2 (.step t) → Step s2 (.step t) s3 →
          s3.now = 5 ∧ ∃ _ : Val Unit, (s3.coros 0).status = .running (.user (1 : Nat)) := by
  have hstep : Step planner.started (.exec 0) planner.waiting := .exec _ _ _ rfl (by decide)
  have h := await_takes_duration (c := 0) (e := plan) (f := .user (0 : Nat))
    (k := fun _ => .user (1 : Nat)) planner.started_reachable planner.plan_fits rfl rfl
    planner.waiting_free hstep
  exact h.resolve_left fun h0 => absurd h0.1 (by decide)

/-- An `any_of` with a latency. -/
def hasty : Flow Unit :=
  .comp .anyOf 1 PriorityConsts.inherit [.delay 1 PriorityConsts.inherit]

/-- A process that awaits it, with the latency given in place. -/
def chaining : Program where
  User := Unit
  Body := Bool
  Memory := Unit
  Value := Unit
  Error := Unit
  start _ := true
  next b m _ := (m, if b then .await hasty.inPlace fun _ => false else .coReturn none)

def chaining.started : State chaining :=
  (State.init ()).after State.exceptionFree [.bind (.call () {}), .step 0]

/-- It is to go on after 2, but the `co_await` is undefined. -/
theorem latency_in_place_undefined :
    ∃ (s : State chaining) (c : CoroId) (f : chaining.Frame)
      (k : Result chaining.Value chaining.Error → chaining.Frame), Reachable ExceptionFree s ∧
        (s.coros c).status = .running f ∧ s.next f = .await hasty.inPlace k ∧
        hasty.Fits chaining ∧ hasty.dur s.now = 2 ∧ s.exec c = .error .invalidAwait ∧
        ∀ s1, ¬ Step s (.exec c) s1 := by
  have hexec : chaining.started.exec 0 = .error .invalidAwait := rfl
  refine ⟨chaining.started, 0, .user true, fun _ => .user false,
    .after State.exceptionFree_spec _ _, rfl, rfl, ?_, by decide, hexec, fun s1 hstep => ?_⟩
  · exact ⟨by decide, fun _ h => by (cases h), show (0 : Int) ≤ 1 by decide, trivial⟩
  · cases hstep with
    | exec _ _ hex => cases hexec.symm.trans hex

theorem process_takes_duration_planner :
    ((planner.waiting.coros 0).complete = false ∧ planner.waiting.returnedAs 0 = [] ∧
        planner.waiting.DueBy 5) ∨ ∃ v, planner.waiting.returnedAs 0 = [(.ok v, 5)] := by
  have hfit : (Flow.process (0 : Nat) {} [plan]).Fits planner :=
    ⟨rfl, by decide, by decide, planner.performs_plan, planner.plan_fits, trivial⟩
  exact process_takes_duration (Reachable.init (P := planner) ()) hfit (.bind _ _ rfl (by decide))
    planner.waiting_runs

end Cxxdes
