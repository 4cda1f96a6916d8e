-- SUMMARY: The time at which a process that awaits a relative or absolute timeout runs on.
import Cxxdes.Run.Clock
import Cxxdes.Run.Yield

/-!
# Timeouts

A timeout schedules a token for its time, and `until` does not suspend when that time has come.
With the heap in order the clock does not pass a pending token, so that the process runs on at
the time of the token, or at once where that time is in the past.
-/

namespace Cxxdes

variable {P : Program} {s s' s1 s2 s3 : State P} {c : CoroId} {y : TokenId}

/-- `pt` in `timeout_base::await_suspend`. -/
def tokenTime (now : Int) (relative : Bool) (time : Int) : Int :=
  if relative then now + time else time

/-- When a process runs on that waits from `now` on for a token with time `pt`. -/
def resumeTime (now pt : Int) : Int := max now pt

/-! ### The clock and a pending token -/

/-- The token `y` has not been pending since it was executed, or it still is, and the clock has
moved from `start` no further than it. -/
def NotPassed (y : TokenId) (tkn : Token P.Error) (start : Int) (s : State P) : Prop :=
  y < s.nextToken ∧ ¬ s.Held y ∧
    (y ∈ s.queue → s.tokens y = tkn ∧ start ≤ s.now ∧ s.now ≤ resumeTime start tkn.time)

/-- While the heap is in order no transition moves the clock past a pending token. -/
theorem Step.clock_le {l : Label P} (hstep : Step s l s') (hs : Sound s) (hp : s.Plain)
    (hl : l ≠ .reset) (hy : y ∈ s.queue) :
    s.now ≤ s'.now ∧ s'.now ≤ max s.now (s.tokens y).time := by
  obtain ⟨gone, own, ho⟩ := hs.owned
  have hk := hstep.kept hs.tidy hl ho
  have hleast : ∀ t, s.IsTop t → (s.tokens t).time ≤ (s.tokens y).time :=
    fun t htop => ho.least_time (.inl hp.1) htop y hy
  rw [hk.now]
  cases hstep with
  | step t _ htop =>
      have ht := hleast t htop
      simp only [State.begun, State.pop]
      omega
  | advance deadline hdue =>
      simp only [State.begun]
      cases hdue with
      | inl hempty =>
          rw [hempty] at hy
          cases hy
      | inr htop =>
          obtain ⟨t, htop, hlt⟩ := htop
          have ht := hleast t htop
          omega
  | call | bind | elsewhere | exec =>
      simp only [State.begun]
      omega
  | reset => exact absurd rfl hl

theorem Step.notPassed {l : Label P} (hstep : Step s l s') (hs : Sound s) (hp : s.Plain)
    {tkn : Token P.Error} {start : Int} (h : NotPassed y tkn start s) :
    NotPassed y tkn start s' := by
  obtain ⟨hlt, hfree, hy⟩ := h
  have hm := hstep.moves hs
  have hlt' : y < (s.popped l).nextToken := by cases l <;> exact hlt
  have hheld : (s.popped l).Held y → s.Held y := by cases l <;> exact id
  refine ⟨Nat.lt_of_lt_of_le hlt' hm.nextToken, fun hh => hfree (hheld (hm.held y hlt' hh)), ?_⟩
  intro hy'
  cases Classical.em (l = .reset) with
  | inl hreset =>
      subst hreset
      cases hstep
      cases hy'
  | inr hne =>
      have hq : y ∈ s.queue := by
        rcases hm.queue y hy' with hq | hh | hge
        · cases l with
          | step t => exact List.mem_of_mem_erase hq
          | _ => exact hq
        · exact absurd (hheld hh) hfree
        · exact absurd hlt' (Nat.not_lt.mpr hge)
      obtain ⟨htkn, hstart, hnow⟩ := hy hq
      have htok : s'.tokens y = s.tokens y := by
        refine (hm.unheld y hlt' fun hh => hfree (hheld hh)).trans ?_
        cases l <;> rfl
      obtain ⟨h1, h2⟩ := hstep.clock_le hs hp hne hq
      rw [htkn] at h2
      unfold resumeTime at hnow ⊢
      exact ⟨htok.trans htkn, Int.le_trans hstart h1, by omega⟩

theorem NotPassed.runs {tkn : Token P.Error} {start : Int} (h : NotPassed y tkn start s)
    (hs : Sound s) (hr : Transition.Runs Step (fun s _ => s.Plain) s s') :
    Sound s' ∧ NotPassed y tkn start s' := by
  refine hr.invariant (I := fun s => Sound s ∧ NotPassed y tkn start s) ?_ ⟨hs, h⟩
  rintro s l s' ⟨hs, h⟩ hp hstep
  exact ⟨hstep.sound hs, hstep.notPassed hs hp h⟩

/-! ### Awaiting a timeout -/

theorem coAwait_until_due {s : State P} {c : CoroId} {time : Int} (h : time ≤ s.now) (own : Int)
    (tkn : Option TokenId) (k : Result P.Value P.Error → P.Frame) :
    s.coAwait c (.timeout false time own tkn) k = s.deliver c none k (.ok .unit) := by
  have hready : (!false && decide (time ≤ s.now)) = true := by simp [h]
  simp only [State.coAwait, Awaitable.wrap, Awaitable.copy, awaitBind, awaitReady, hready]
  rfl

theorem coAwait_timeout {s : State P} {c : CoroId} {relative : Bool} {time : Int}
    (h : relative = true ∨ s.now < time) (own : Int) (tkn : Option TokenId)
    (k : Result P.Value P.Error → P.Frame) :
    s.coAwait c (.timeout relative time own tkn) k =
      ((s.newToken ⟨tokenTime s.now relative time, resolvePriority own (s.coros c).priority,
        s.current, none, none⟩).scheduleToken s.nextToken).suspend c
          (.timeout relative time (resolvePriority own (s.coros c).priority)
            (some s.nextToken)) k := by
  have hready : (!relative && decide (time ≤ s.now)) = false := by
    cases h with
    | inl h => simp [h]
    | inr h => simp [Int.not_le.mpr h]
  simp only [State.coAwait, Awaitable.wrap, Awaitable.copy, awaitBind, awaitReady, hready]
  rfl

/-- Process `c` runs at time `T`; or it waits for a token, and runs at time `T` when that token is
executed, in every run with the heap in order and no exception-only token pending. -/
def State.RunsOnAt (s : State P) (c : CoroId) (T : Int) : Prop :=
  (s.now = T ∧ ∃ f, (s.coros c).status = .running f) ∨
    ∃ a k y, (s.coros c).status = .suspended a k ∧ a.token = some y ∧ y ∈ s.queue ∧
      ∀ s2 s3, Transition.Runs Step (fun s _ => s.Plain) s s2 → s2.Plain →
        Step s2 (.step y) s3 → s3.now = T ∧ ∃ f, (s3.coros c).status = .running f

/-- A token that names a process resumes it. -/
theorem Stepped.runs {t : TokenId} (h : Stepped s t s') (hh : (s.tokens t).handler = none)
    (hc : (s.tokens t).coroData = some c) : ∃ f, (s'.coros c).status = .running f := by
  cases h with
  | start c' f _ hc' =>
      obtain rfl : c = c' := Option.some.inj (hc.symm.trans hc')
      exact ⟨f, by simp [State.log, State.setStatus, State.setCoro]⟩
  | resume c' a k r s1 _ hc' =>
      obtain rfl : c = c' := Option.some.inj (hc.symm.trans hc')
      exact ⟨k r, by simp [State.deliver, State.log, State.setStatus, State.setCoro]⟩
  | rethrow h e hh' | fire h out hh' | count h hh' =>
      rw [hh] at hh'
      cases hh'
  | raise e _ hc' | skip _ hc' =>
      rw [hc] at hc'
      cases hc'

/-- When the token is executed, the process it names runs, at the time that was due. -/
theorem NotPassed.resumes {tkn : Token P.Error} {start : Int} (h : NotPassed y tkn start s)
    (hs : Sound s) (hh : tkn.handler = none) (hc : tkn.coroData = some c)
    (hstep : Step s (.step y) s') :
    s'.now = resumeTime start tkn.time ∧ ∃ f, (s'.coros c).status = .running f := by
  obtain ⟨gone, own, ho⟩ := hs.owned
  have hnow := (hstep.kept hs.tidy (by simp) ho).now
  cases hstep with
  | step _ _ htop hex =>
      obtain ⟨htkn, h1, h2⟩ := h.2.2 htop.1
      rw [← htkn] at hh hc
      refine ⟨?_, (step_stepped hex).runs hh hc⟩
      rw [hnow]
      simp only [State.begun, State.pop, htkn, resumeTime] at h2 ⊢
      omega

/-- A process that awaits `timeout` or `until` runs on when the time of its token has come. -/
theorem Step.runsOnAt {C : State P → Label P → Prop} {f : P.Frame} {relative : Bool}
    {time own : Int}
    {tkn : Option TokenId} {k : Result P.Value P.Error → P.Frame} (h : Reachable C s)
    (hstep : Step s (.exec c) s1) (hst : (s.coros c).status = .running f)
    (hact : s.next f = .await (.timeout relative time own tkn) k) (hcur : s.current = some c) :
    s1.RunsOnAt c (resumeTime s.now (tokenTime s.now relative time)) := by
  have hs1 := hstep.sound h.sound
  cases hstep with
  | exec _ _ hex =>
      obtain ⟨f', hst', hacted⟩ := exec_acted hex
      obtain rfl : f' = f := Status.running.inj (hst'.symm.trans hst)
      rw [hact] at hacted
      cases hacted with
      | await =>
          let p := resolvePriority own (s.coros c).priority
          cases Classical.em (relative = true ∨ s.now < time) with
          | inl hsus =>
              rw [coAwait_timeout (s := s.ran f') hsus] at hs1 ⊢
              obtain ⟨gone1, own1, ho1⟩ := hs1.owned
              have hq : s.nextToken ∈ s.queue ++ [s.nextToken] := by simp
              have hwait : NotPassed s.nextToken
                  ⟨tokenTime s.now relative time, p, some c, none, none⟩ s.now _ :=
                ⟨Nat.lt_succ_self _, ho1.queue_notHeld hq, fun _ =>
                  ⟨by rw [← hcur]; exact Function.update_self .., Int.le_refl _,
                    Int.le_max_left _ _⟩⟩
              refine .inr ⟨.timeout relative time p (some s.nextToken), k, s.nextToken, ?_, rfl, hq,
                fun s2 s3 hr hp hstep3 => ?_⟩
              · simp only [State.suspend, State.setStatus, State.setCoro, Function.update_self]
                rfl
              · obtain ⟨hs2, hwait⟩ := hwait.runs hs1 hr
                exact hwait.resumes hs2 rfl rfl hstep3
          | inr hready =>
              obtain ⟨hrel, hle⟩ := not_or.mp hready
              have hrel : relative = false := Bool.eq_false_iff.mpr hrel
              have hle : time ≤ s.now := Int.not_lt.mp hle
              subst hrel
              rw [coAwait_until_due (s := s.ran f') hle]
              refine .inl ⟨?_, k (.ok .unit), ?_⟩
              · exact (Int.max_eq_left hle).symm
              · simp [State.deliver, State.log, State.setStatus, State.setCoro]

end Cxxdes
