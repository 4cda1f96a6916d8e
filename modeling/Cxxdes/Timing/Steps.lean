-- SUMMARY: Every transition without exceptions upholds what is expected, with the same time.
import Cxxdes.Timing.Kept

/-!
# Expectations under transitions

A transition executes a token or ends a process at the time at which that was expected, or the
expectation still holds after it. The cases follow the rules of `State.Expects`.
-/

namespace Cxxdes

variable {P : Program} {s s' : State P} {c : CoroId} {t u : TokenId} {l : Label P} {n : Int}

/-- The body of `c` returns in the transition. -/
def State.Ends (s : State P) (c : CoroId) (l : Label P) : Prop :=
  ∃ f v, l = .exec c ∧ (s.coros c).status = .running f ∧ s.next f = .coReturn v

/-- What the transition makes of an expectation: it comes true at its time, or it stays. -/
def State.Upholds (s : State P) (l : Label P) (s' : State P) : Occurrence → Int → Prop
  | .fires t, n => l ≠ .step t → s'.Expects (.fires t) n
  | .ends c, n => (s.Ends c l ∧ n = s.now) ∨ (¬ s.Ends c l ∧ s'.Expects (.ends c) n)

/-- A transition of a run without exceptions. -/
structure Step.Plainly (s : State P) (l : Label P) (s' : State P) : Prop where
  step : Step s l s'
  single : Single s
  unraised : s.Unraised
  ordered : s.Ordered
  free : ExceptionFree s l

theorem State.Expects.not_finished (h : s.Expects (.ends c) n) :
    (s.coros c).status ≠ .finished := by
  cases h with
  | initial _ f t es hst => simp [hst]
  | running _ f es hst => simp [hst]
  | suspended _ a k t n es hw => simp [hw.status]

theorem State.Ends.running (h : s.Ends c l) : ∃ f, (s.coros c).status = .running f := by
  obtain ⟨f, v, -, hst, -⟩ := h
  exact ⟨f, hst⟩

theorem Step.exec_running (hstep : Step s (.exec c) s') :
    ∃ f, (s.coros c).status = .running f := by
  cases hstep with
  | exec _ _ hex =>
      obtain ⟨f, hst, -⟩ := exec_acted hex
      exact ⟨f, hst⟩

/-- The token that is executed is pending, and the clock is set to its time. -/
theorem Step.popped (hstep : Step s (.step t) s') (hs : Sound s) :
    t ∈ s.queue ∧ Stepped s t s' ∧ s'.now = max (s.tokens t).time s.now := by
  obtain ⟨gone, own, ho⟩ := hs.owned
  have hnow := (hstep.kept hs.tidy (by simp) ho).now
  cases hstep with
  | step _ _ htop hst => exact ⟨htop.1, step_stepped hst, hnow⟩

/-- Other pending tokens stay pending. -/
theorem Step.pending (hstep : Step s l s') (hs : Sound s) (hl : l ≠ .reset) (ht : t ∈ s.queue)
    (hne : l ≠ .step t) : t ∈ s'.queue ∧ s'.tokens t = s.tokens t := by
  obtain ⟨gone, own, ho⟩ := hs.owned
  have hk := hstep.kept hs.tidy hl ho
  have hq : t ∈ (s.begun l).queue := by
    cases l with
    | step u => exact (List.mem_erase_of_ne fun heq => hne (by rw [heq])).mpr ht
    | _ => exact ht
  refine ⟨hk.queue t hq, (hk.token t hq).trans ?_⟩
  cases l <;> rfl

/-- A process that returns releases its completion tokens. -/
theorem Step.closes (hstep : Step s l s') (hs : Sound s) (he : s.Ends c l) :
    ∃ v, Closes c (.ok v) s s' ∧ ((s'.coros c).void = true ∨
      (s'.coros c).returnValue.isSome = true) := by
  obtain ⟨f, v, rfl, hst, hact⟩ := he
  obtain ⟨gone, own, ho⟩ := hs.owned
  cases hstep with
  | exec _ _ hex =>
      obtain ⟨f', hst', hacted⟩ := exec_acted hex
      obtain rfl : f' = f := Status.running.inj (hst'.symm.trans hst)
      rw [hact] at hacted
      cases hacted with
      | returns _ hv hnull =>
          have hcl := closes_returns hv (ho.completionNodup c)
          refine ⟨_, ⟨hcl.now, hcl.nextToken, hcl.nextCoro, hcl.queue, hcl.executed, hcl.events,
            hcl.handlers, hcl.objects, hcl.released, hcl.token, hcl.coro, hcl.self, hcl.value,
            hcl.logs⟩, ?_⟩
          rw [State.doReturn_eq]
          simp only [State.setCoro, Function.update_self]
          cases hvoid : ((s.ran f').coros c).void with
          | true => exact .inl (by simp)
          | false =>
              right
              rw [hvoid] at hv
              cases v with
              | none => simp at hv
              | some v => simp

/-- The token resumes the process that waits for it, and the `co_await` does not throw. -/
theorem State.WaitsIn.resumes {a : Awaitable P.User} {k : Result P.Value P.Error → P.Frame}
    (hw : s.WaitsIn c a k t) (hst : Stepped s t s') (hs : Sound s) (hun : s.Unraised)
    (hq : t ∈ s.queue) : ∃ v, (s'.coros c).status = .running (k (.ok v)) := by
  obtain ⟨gone, own, ho⟩ := hs.owned
  cases hst with
  | resume d a' k' r s1 _ hd hst' hr =>
      obtain rfl : c = d := Option.some.inj (hw.coroData.symm.trans hd)
      obtain ⟨rfl, rfl⟩ := Status.suspended.inj (hw.status.symm.trans hst')
      obtain ⟨v, hv⟩ := awaitResume_checks (s := { s.pop t with current := some c }) hw.checks hun
        fun p tkn ha => by
          cases hw.value p tkn ha with
          | inl hmem => exact absurd hmem (ho.queue_notMem_completion hq p.coro)
          | inr hval => exact ⟨hval.called, hval.finished, hval.value⟩
      obtain ⟨rfl, -⟩ := Prod.mk.inj (hv.symm.trans hr)
      exact ⟨v, by simp [State.deliver, State.log, State.setStatus, State.setCoro]⟩
  | start d f _ hd hst' =>
      obtain rfl : c = d := Option.some.inj (hw.coroData.symm.trans hd)
      rw [hw.status] at hst'
      cases hst'
  | rethrow j e hj | fire j out hj | count j hj =>
      rw [hw.handler] at hj
      cases hj
  | raise e _ hd | skip _ hd =>
      rw [hw.coroData] at hd
      cases hd

/-- The source of a process is the token that it waits for. -/
theorem Step.Plainly.status_same (h : Step.Plainly s l s') (hans : s.Answers c t)
    (hne : l ≠ .step t) (hidle : l ≠ .exec c) (hc : c < s.nextCoro) :
    (s'.coros c).status = (s.coros c).status := by
  refine h.step.status_same h.single.sound h.free.ne_reset hc hidle ?_
  rintro u rfl ⟨hh, hcd⟩
  obtain ⟨hq, -⟩ := h.step.popped h.single.sound
  have hu : s.Answers c u := h.single.sources c u (by simp) ⟨.inl hq, hh, hcd⟩
  unfold State.Answers at hans hu
  cases hst : (s.coros c).status with
  | initial f =>
      rw [hst] at hans hu
      exact hne (by rw [Option.some.inj (hans.symm.trans hu)])
  | suspended a k =>
      rw [hst] at hans hu
      exact hne (by rw [Option.some.inj (hans.symm.trans hu)])
  | running f =>
      rw [hst] at hans
      exact hans
  | finished =>
      rw [hst] at hans
      exact hans

/-- Only one child was left of an `all_of` that fires. -/
theorem State.Outstanding.last_child {i : HandlerId} {ts : List TokenId} (hts : s.Outstanding i ts)
    (hcond : (s.handlers i).cond = .allOf) (hf : s.fires i = true) (ht : t ∈ ts) (hu : u ∈ ts) :
    t = u := by
  have hpos : 0 < ts.length := List.length_pos_of_mem hu
  unfold State.fires at hf
  rw [hcond, hts.remaining] at hf
  simp only [Condition.holds, sizeDecr, Nat.ne_of_gt hpos, if_false, decide_eq_true_eq] at hf
  have hone : (ts.erase u).length = 0 := by rw [List.length_erase_of_mem hu, hf]
  by_contra hne
  have hmem := (List.mem_erase_of_ne hne).mpr ht
  rw [List.length_eq_zero_iff.mp hone] at hmem
  cases hmem

/-! ### Tokens -/

namespace Step.Plainly

theorem pending (h : Step.Plainly s l s') (hq : t ∈ s.queue) (hnow : s.now ≤ (s.tokens t).time) :
    s.Upholds l s' (.fires t) (s.tokens t).time := by
  intro hne
  obtain ⟨hq', htok⟩ := h.step.pending h.single.sound h.free.ne_reset hq hne
  have hle := (h.step.clock_le h.single.sound (h.unraised.plain h.ordered) h.free.ne_reset hq).2
  have hnow' : s'.now ≤ (s'.tokens t).time := by
    rw [htok]
    omega
  rw [← htok]
  exact .pending t hq' hnow'

theorem completion (h : Step.Plainly s l s') (ht : t ∈ (s.coros c).completionTokens)
    (hu : (s.coros c).unique = false) (hlat : 0 ≤ (s.tokens t).time)
    (hc : s.Expects (.ends c) n) (ih : s.Upholds l s' (.ends c) n) :
    s.Upholds l s' (.fires t) (n + (s.tokens t).time) := by
  intro _
  obtain ⟨gone, own, ho⟩ := h.single.sound.owned
  have hown := ho.completion c t ht
  have hlt : c < s.nextCoro := h.single.sound.tidy.fresh.lt_of_status hc.not_finished
  cases ih with
  | inl hends =>
      obtain ⟨hends, rfl⟩ := hends
      obtain ⟨v, hcl, -⟩ := h.step.closes h.single.sound hends
      have htok := hcl.released t ht (h.unraised t)
      have htime : s.now + (s.tokens t).time = (s'.tokens t).time := by
        rw [htok]
        exact Int.add_comm _ _
      have hnow : s'.now ≤ (s'.tokens t).time := by
        rw [← htime, hcl.now]
        omega
      rw [htime]
      exact .pending t (by rw [hcl.queue]; exact List.mem_append_right _ ht) hnow
  | inr hgoes =>
      obtain ⟨hno, hc'⟩ := hgoes
      have hkept := h.step.coroKept h.single.sound h.free hlt fun f v hl hst hact =>
        hno ⟨f, v, hl, hst, hact⟩
      have htok : s'.tokens t = s.tokens t := by
        refine h.step.token_same h.single.sound h.free (ho.live_lt (.inr (.inr (.inl ⟨c, ht⟩))))
          (fun e he => ?_) fun hrel => ?_
        · rw [ho.event e t he] at hown
          cases hown
        · cases hrel with
          | returns d f v hst hact hd =>
              rw [ho.completion d t hd] at hown
              cases hown
              exact hno ⟨f, v, rfl, hst, hact⟩
          | fires u i hh hout =>
              rw [ho.output i t hout] at hown
              cases hown
      have hlat' : 0 ≤ (s'.tokens t).time := by rw [htok]; exact hlat
      rw [← htok]
      exact .completion c t n (hkept.completion hu t ht) (hkept.unique.trans hu) hlat' hc'

theorem executed (h : Step.Plainly s l s') : t ∈ s'.executed ↔ t ∈ s.executed ∨ l = .step t := by
  rw [(h.step.moves h.single.sound).executed]
  cases l with
  | step w => simp [State.popped, State.pop, eq_comm]
  | _ => simp [State.popped]

/-! ### Handlers -/

/-- The children of a handler that have yet to report, after a transition. -/
theorem outstanding_mem (h : Step.Plainly s l s') {i : HandlerId} {ts : List TokenId}
    (ho : s.Outstanding i ts) (hi : i < s.nextHandler) :
    ∀ u, (u ∈ ts ∧ l ≠ .step u) ↔
      u < s'.nextToken ∧ (s'.tokens u).handler = some i ∧ u ∉ s'.executed := by
  intro u
  have hm := h.step.moves h.single.sound
  have hexec : u ∈ s'.executed ↔ u ∈ s.executed ∨ l = .step u := h.executed
  have hlt : u < s.nextToken → u < (s.popped l).nextToken := fun hu => by cases l <;> exact hu
  have hfields : u < s.nextToken → (s'.tokens u).handler = (s.tokens u).handler := fun hu => by
    rw [(hm.fields u (hlt hu)).1]
    cases l <;> rfl
  constructor
  · rintro ⟨hu, hne⟩
    obtain ⟨hlt1, hh, hex⟩ := (ho.mem u).mp hu
    refine ⟨Nat.lt_of_lt_of_le (hlt hlt1) hm.nextToken, (hfields hlt1).trans hh, fun hex' => ?_⟩
    exact (hexec.mp hex').elim hex hne
  · rintro ⟨hlt', hh, hex⟩
    have hlt1 : u < s.nextToken := by
      refine Nat.lt_of_not_le fun hle => ?_
      have hle' : (s.popped l).nextToken ≤ u := by cases l <;> exact hle
      cases hm.reports u i hle' hlt' hh with
      | inl heq => cases heq
      | inr hnew =>
          have hge : s.nextHandler ≤ i := by cases l <;> exact hnew.1
          exact absurd hi (Nat.not_lt.mpr hge)
    rw [hfields hlt1] at hh
    exact ⟨(ho.mem u).mpr ⟨hlt1, hh, fun hx => hex (hexec.mpr (.inl hx))⟩,
      fun hl => hex (hexec.mpr (.inr hl))⟩

/-- The output token of a handler that does not fire is left alone. -/
theorem output_same (h : Step.Plainly s l s') {i : HandlerId}
    (hout : (s.handlers i).completionTkn = some t)
    (hno : ∀ u, l = .step u → (s.tokens u).handler = some i → s.fires i = false) :
    s'.tokens t = s.tokens t := by
  obtain ⟨gone, own, ho⟩ := h.single.sound.owned
  have hown := ho.output i t hout
  refine h.step.token_same h.single.sound h.free (ho.live_lt (.inr (.inr (.inr ⟨i, hout⟩))))
    (fun e he => ?_) fun hrel => ?_
  · rw [ho.event e t he] at hown
    cases hown
  · cases hrel with
    | returns d f v hst hact hd =>
        rw [ho.completion d t hd] at hown
        cases hown
    | fires u j hh hj hf =>
        rw [ho.output j t hj] at hown
        cases hown
        rw [hno u rfl hh] at hf
        cases hf

variable {i : HandlerId} {ts : List TokenId} {due : TokenId → Int}

theorem outstanding_keeps (h : Step.Plainly s l s') (hi : i < s.nextHandler)
    (hts : s.Outstanding i ts) (hno : ∀ u, l = .step u → (s.tokens u).handler ≠ some i)
    (heq : s'.handlers i = s.handlers i) : s'.Outstanding i ts where
  nodup := hts.nodup
  mem u := by
    have hne : u ∈ ts → l ≠ .step u := fun hu hl => hno u hl ((hts.mem u).mp hu).2.1
    exact (iff_self_and.mpr hne).trans (h.outstanding_mem hts hi u)
  remaining := by
    rw [heq]
    exact hts.remaining
  total := by
    rw [heq]
    exact hts.total

/-- A handler that counts a child and does not fire is that of an `all_of` with more children. -/
theorem outstanding_counts (h : Step.Plainly s (.step u) s') (hi : i < s.nextHandler)
    (hts : s.Outstanding i ts) (hu : u ∈ ts) (hf : s.fires i = false)
    (heq : s'.handlers i =
      { s.handlers i with remaining := sizeDecr (s.handlers i).remaining }) :
    (s.handlers i).cond = .allOf ∧ ts.erase u ≠ [] ∧ s'.Outstanding i (ts.erase u) := by
  have hpos : 0 < ts.length := List.length_pos_of_mem hu
  have hdecr : sizeDecr (s.handlers i).remaining = ts.length - 1 := by
    rw [hts.remaining]
    exact if_neg (Nat.ne_of_gt hpos)
  have hlen : (ts.erase u).length = ts.length - 1 := List.length_erase_of_mem hu
  have htotal := hts.total
  unfold State.fires at hf
  rw [hdecr] at hf
  -- an `any_of` would have fired
  cases hcond : (s.handlers i).cond with
  | anyOf =>
      rw [hcond] at hf
      simp only [Condition.holds, decide_eq_false_iff_not] at hf
      omega
  | allOf =>
      rw [hcond] at hf
      simp only [Condition.holds, decide_eq_false_iff_not] at hf
      refine ⟨rfl, fun hnil => hf (by rw [← hlen, hnil]; rfl), hts.nodup.erase u,
        fun w => ?_, ?_, ?_⟩
      · rw [← h.outstanding_mem hts hi w, hts.nodup.mem_erase_iff, and_comm]
        simp [eq_comm]
      · rw [heq, hlen, ← hdecr]
      · rw [heq, hlen]
        simp only
        omega

/-- No child of the handler is executed. -/
theorem output_keeps (h : Step.Plainly s l s') (hi : i < s.nextHandler)
    (hout : (s.handlers i).completionTkn = some t) (hlat : 0 ≤ (s.tokens t).time)
    (hts : s.Outstanding i ts) (ih : ∀ u ∈ ts, s.Upholds l s' (.fires u) (due u))
    (hn : (s.handlers i).cond.Decides (ts.map due) n)
    (hno : ∀ u, l = .step u → (s.tokens u).handler ≠ some i)
    (heq : s'.handlers i = s.handlers i) : s'.Expects (.fires t) (n + (s.tokens t).time) := by
  have htok := h.output_same hout fun u hl hh => absurd hh (hno u hl)
  have hne : ∀ u ∈ ts, l ≠ .step u := fun u hu hl => hno u hl ((hts.mem u).mp hu).2.1
  have hlat' : 0 ≤ (s'.tokens t).time := by rw [htok]; exact hlat
  rw [← htok]
  exact .output i t ts due n (by rw [heq]; exact hout) hlat' (h.outstanding_keeps hi hts hno heq)
    (fun u hu => ih u hu (hne u hu)) (by rw [heq]; exact hn)

/-- A child of an `all_of` reports, and others have yet to: the last of them decides. -/
theorem output_counts (h : Step.Plainly s (.step u) s') (hi : i < s.nextHandler)
    (hout : (s.handlers i).completionTkn = some t) (hlat : 0 ≤ (s.tokens t).time)
    (hts : s.Outstanding i ts) (hdue : ∀ u ∈ ts, s.Expects (.fires u) (due u))
    (ih : ∀ w ∈ ts, s.Upholds (.step u) s' (.fires w) (due w))
    (hn : (s.handlers i).cond.Decides (ts.map due) n) (hu : u ∈ ts)
    (hf : s.fires i = false)
    (heq : s'.handlers i =
      { s.handlers i with remaining := sizeDecr (s.handlers i).remaining }) :
    s'.Expects (.fires t) (n + (s.tokens t).time) := by
  obtain ⟨hq, hst, hnow⟩ := h.step.popped h.single.sound
  have htok := h.output_same hout fun _ _ _ => hf
  obtain ⟨hcond, hnonempty, hts'⟩ := h.outstanding_counts hi hts hu hf heq
  have hlater : ∀ w ∈ ts.erase u, s'.Expects (.fires w) (due w) := fun w hw => by
    have hwu := (hts.nodup.mem_erase_iff.mp hw).1
    exact ih w (List.mem_of_mem_erase hw) fun hl => hwu (Label.step.inj hl).symm
  rw [hcond] at hn
  have hn' : Condition.allOf.Decides ((ts.erase u).map due) n := by
    constructor
    · obtain ⟨v, hv, hvn⟩ := List.mem_map.mp hn.mem
      by_cases hvu : v = u
      · -- the child that reports is the last: then the others are due now
        subst hvu
        obtain ⟨w, hw⟩ := List.exists_mem_of_ne_nil (ts.erase v) hnonempty
        have htime := (hdue v hv).time h.single.sound hq
        have hle : due w ≤ n :=
          hn.within _ (List.mem_map_of_mem (List.mem_of_mem_erase hw))
        have hge := (hlater w hw).now_le
        have heqn : due w = n := by omega
        rw [← heqn]
        exact List.mem_map_of_mem hw
      · rw [← hvn]
        exact List.mem_map_of_mem ((List.mem_erase_of_ne hvu).mpr hv)
    · intro d hd
      obtain ⟨w, hw, rfl⟩ := List.mem_map.mp hd
      exact hn.within _ (List.mem_map_of_mem (List.mem_of_mem_erase hw))
  have hlat' : 0 ≤ (s'.tokens t).time := by rw [htok]; exact hlat
  rw [← htok]
  exact .output i t (ts.erase u) due n (by rw [heq]; exact hout) hlat' hts' hlater
    (by rw [heq, hcond]; exact hn')

/-- A handler that fires schedules its output token, relative to the time of the child. -/
theorem scheduled_output (h : Step.Plainly s (.step u) s')
    (hout : (s.handlers i).completionTkn = some t) (hh : (s.tokens u).handler = some i)
    (hf : s.fires i = true) :
    t ∈ s'.queue ∧ (s'.tokens t).time = (s.tokens u).time + (s.tokens t).time := by
  obtain ⟨hq, hst, -⟩ := h.step.popped h.single.sound
  cases hst with
  | rethrow j e hj he =>
      rw [h.unraised u] at he
      cases he
  | count j hj he hno =>
      obtain rfl : i = j := Option.some.inj (hh.symm.trans hj)
      cases hno with
      | inl hnone =>
          rw [hout] at hnone
          cases hnone
      | inr hno =>
          rw [hf] at hno
          cases hno
  | fire j out hj he hout' =>
      obtain rfl : i = j := Option.some.inj (hh.symm.trans hj)
      obtain rfl : t = out := Option.some.inj (hout.symm.trans hout')
      refine ⟨List.mem_append_right _ (List.mem_singleton_self _), ?_⟩
      simp only [State.fire, State.scheduleToken, State.setToken, State.setHandler,
        Function.update_self, State.outputToken, State.pop]
      exact Int.add_comm _ _
  | start d f hnone | resume d a k r s1 hnone | raise e hnone | skip hnone =>
      rw [hh] at hnone
      cases hnone

/-- The child that decides reports: it is due at time `n`, and the output token follows it. -/
theorem output_fires (h : Step.Plainly s (.step u) s')
    (hout : (s.handlers i).completionTkn = some t) (hlat : 0 ≤ (s.tokens t).time)
    (hts : s.Outstanding i ts) (hdue : ∀ u ∈ ts, s.Expects (.fires u) (due u))
    (ih : ∀ w ∈ ts, s.Upholds (.step u) s' (.fires w) (due w))
    (hn : (s.handlers i).cond.Decides (ts.map due) n) (hu : u ∈ ts)
    (hh : (s.tokens u).handler = some i) (hf : s.fires i = true) :
    s'.Expects (.fires t) (n + (s.tokens t).time) := by
  obtain ⟨hq, hst, hnow⟩ := h.step.popped h.single.sound
  have htime := (hdue u hu).time h.single.sound hq
  have hge := (hdue u hu).now_le
  have hmax : s'.now = due u := by omega
  have hdecides : n = due u := by
    obtain ⟨v, hv, hvn⟩ := List.mem_map.mp hn.mem
    by_cases hvu : v = u
    · rw [← hvn, hvu]
    · have hlater := (ih v hv fun hl => hvu (Label.step.inj hl).symm).now_le
      have hwithin := hn.within _ (List.mem_map_of_mem hu)
      cases hcond : (s.handlers i).cond with
      | anyOf =>
          rw [hcond] at hwithin
          simp only [Condition.Within] at hwithin
          omega
      | allOf =>
          exact absurd (hts.last_child hcond hf hv hu) hvu
  obtain ⟨hsched, htok⟩ := h.scheduled_output hout hh hf
  have hn' : n + (s.tokens t).time = (s'.tokens t).time := by rw [htok, hdecides, htime]
  rw [hn']
  exact .pending t hsched (by omega)

/-- A child that is executed was still to report. -/
theorem outstanding_popped (h : Step.Plainly s (.step u) s') (hts : s.Outstanding i ts)
    (hh : (s.tokens u).handler = some i) : u ∈ ts := by
  obtain ⟨gone, own, ho⟩ := h.single.sound.owned
  have hq := (h.step.popped h.single.sound).1
  refine (hts.mem u).mpr ⟨ho.queue_lt hq, hh, fun hex => ?_⟩
  exact ho.executed_notLive (ho.executed u hex) (.inl hq)

/-- Without exceptions a handler that keeps its output token does not hold. -/
theorem not_fires (h : Step.Plainly s l s') (hout : (s.handlers i).completionTkn = some t)
    (hno : (∃ e, (s.tokens u).eptr = some e) ∨ (s.handlers i).completionTkn = none ∨
      s.fires i = false) : s.fires i = false := by
  rcases hno with ⟨e, he⟩ | hnone | hf
  · rw [h.unraised u] at he
    cases he
  · rw [hout] at hnone
    cases hnone
  · exact hf

theorem output (h : Step.Plainly s l s') (hout : (s.handlers i).completionTkn = some t)
    (hlat : 0 ≤ (s.tokens t).time) (hts : s.Outstanding i ts)
    (hdue : ∀ u ∈ ts, s.Expects (.fires u) (due u))
    (hn : (s.handlers i).cond.Decides (ts.map due) n)
    (ih : ∀ u ∈ ts, s.Upholds l s' (.fires u) (due u)) :
    s.Upholds l s' (.fires t) (n + (s.tokens t).time) := by
  intro _
  obtain ⟨gone, own, ho⟩ := h.single.sound.owned
  have hi : i < s.nextHandler := Nat.lt_of_not_le fun hle => by
    rw [ho.freshHandler i hle] at hout
    cases hout
  cases h.step.handler h.single.sound hi with
  | keeps hno heq => exact h.output_keeps hi hout hlat hts ih hn hno heq
  | counts u hl hh hno heq =>
      subst hl
      exact h.output_counts hi hout hlat hts hdue ih hn (h.outstanding_popped hts hh)
        (h.not_fires hout hno) heq
  | fires u out hl hh he hout' hf hsch heq =>
      subst hl
      exact h.output_fires hout hlat hts hdue ih hn (h.outstanding_popped hts hh) hh hf

/-! ### Processes -/

theorem not_ends (h : ∀ f, (s.coros c).status ≠ .running f) : ¬ s.Ends c l := fun he => by
  obtain ⟨f, hf⟩ := he.running
  exact h f hf

theorem not_exec (h : Step.Plainly s l s') (hst : ∀ f, (s.coros c).status ≠ .running f) :
    l ≠ .exec c := by
  rintro rfl
  obtain ⟨f, hf⟩ := h.step.exec_running
  exact hst f hf

/-- A process that has been bound begins at the time of its start token. -/
theorem initial (h : Step.Plainly s l s') {f : P.Frame} {es : List (Flow P.User)}
    (hst : (s.coros c).status = .initial f) (hq : t ∈ s.queue)
    (hh : (s.tokens t).handler = none) (hcd : (s.tokens t).coroData = some c)
    (hnow : s.now ≤ (s.tokens t).time) (hp : Performs f es) (hfit : Flow.FitAll P es) :
    s.Upholds l s' (.ends c) ((s.tokens t).time + Flow.durSeq (s.tokens t).time es) := by
  have hidle : ∀ g, (s.coros c).status ≠ .running g := by simp [hst]
  refine .inr ⟨not_ends hidle, ?_⟩
  by_cases hl : l = .step t
  · subst hl
    obtain ⟨-, hstepped, hnow'⟩ := h.step.popped h.single.sound
    have hmax : s'.now = (s.tokens t).time := by omega
    rw [← hmax]
    cases hstepped with
    | start d g _ hd hst' =>
        obtain rfl : c = d := Option.some.inj (hcd.symm.trans hd)
        obtain rfl : f = g := Status.initial.inj (hst.symm.trans hst')
        refine .running c f es ?_ hp hfit
        simp [State.log, State.setStatus, State.setCoro]
    | resume d a k r s1 _ hd hst' =>
        obtain rfl : c = d := Option.some.inj (hcd.symm.trans hd)
        rw [hst] at hst'
        cases hst'
    | rethrow j e hj | fire j out hj | count j hj =>
        rw [hh] at hj
        cases hj
    | raise e _ hd | skip _ hd =>
        rw [hcd] at hd
        cases hd
  · have hlt : c < s.nextCoro := h.single.sound.tidy.fresh.lt_of_status (by simp [hst])
    have hans := h.single.sources c t (by simp) ⟨.inl hq, hh, hcd⟩
    have hsame := h.status_same hans hl (h.not_exec hidle) hlt
    obtain ⟨hq', htok⟩ := h.step.pending h.single.sound h.free.ne_reset hq hl
    have hle := (h.step.clock_le h.single.sound (h.unraised.plain h.ordered) h.free.ne_reset hq).2
    have hnow' : s'.now ≤ (s'.tokens t).time := by
      rw [htok]
      omega
    rw [← htok] at hh hcd ⊢
    exact .initial c f t es (hsame.trans hst) hq' hh hcd hnow' hp hfit

/-- The body goes on without a `co_await`, or with one that is ready. -/
theorem running_on {es : List (Flow P.User)} {f : P.Frame}
    (hst : (s'.coros c).status = .running f) (hnow : s'.now = s.now) (hp : Performs f es)
    (hfit : Flow.FitAll P es) : s'.Expects (.ends c) (s.now + Flow.durSeq s.now es) := by
  rw [← hnow]
  exact .running c f es hst hp hfit

/-- What the running body does is what is expected of it. -/
theorem acts (h : Step.Plainly s (.exec c) s') {f : P.Frame} {es : List (Flow P.User)}
    (hst : (s.coros c).status = .running f) (hp : Performs f es) (hfit : Flow.FitAll P es) :
    s.Upholds (.exec c) s' (.ends c) (s.now + Flow.durSeq s.now es) := by
  obtain ⟨gone, own, ho⟩ := h.single.sound.owned
  have hnow : s'.now = s.now := (h.step.kept h.single.sound.tidy (by simp) ho).now
  have hends : (∀ v, s.next f ≠ .coReturn v) → ¬ s.Ends c (.exec c) := by
    rintro hno ⟨g, v, -, hg, hact⟩
    obtain rfl : f = g := Status.running.inj (hst.symm.trans hg)
    exact hno v hact
  have hcur := h.single.running c f hst
  have hacts : Acts (s.next f) es := hp.acts s.memory s.now
  have hthrow := h.free.sequential f
  have hstep := h.step
  cases hstep with
  | exec _ _ hex =>
      obtain ⟨f', hst', hacted⟩ := exec_acted hex
      obtain rfl : f = f' := Status.running.inj (hst.symm.trans hst')
      generalize hact : s.next f = act at hacts hacted hends
      cases hacts with
      | tau g _ hg =>
          cases hacted
          refine .inr ⟨hends (by simp), running_on ?_ hnow hg hfit⟩
          simp only [State.setStatus, State.setCoro, Function.update_self]
      | create u o _ k hk =>
          cases hacted
          refine .inr ⟨hends (by simp),
            running_on ?_ hnow (hk ⟨s.nextCoro, o.retLatency, o.retPriority⟩) hfit⟩
          simp only [State.setStatus, State.setCoro, Function.update_self]
          rfl
      | declare p _ k hk =>
          cases hacted
          refine .inr ⟨hends (by simp), running_on ?_ hnow (hk s.nextObject) hfit⟩
          simp only [State.setStatus, State.setCoro, Function.update_self]
          rfl
      | bind p _ k hk =>
          refine .inr ⟨hends (by simp), ?_⟩
          cases hacted with
          | bind _ _ s1 hb =>
              refine running_on ?_ hnow (hk (.ok .unit)) hfit
              simp only [State.setStatus, State.setCoro, Function.update_self]
          | bindError _ _ e s1 hb =>
              refine running_on ?_ hnow (hk (.error e)) hfit
              simp only [State.setStatus, State.setCoro, Function.update_self]
      | coReturn v =>
          refine .inl ⟨⟨f, v, rfl, hst, hact⟩, ?_⟩
          simp [Flow.durSeq]
      | await e es k hk =>
          refine .inr ⟨hends (by simp), ?_⟩
          have hs0 : Sound (s.ran f) := h.single.sound.quiet (.of_coros rfl) rfl rfl rfl
            h.single.sound.started.current
          cases hacted with
          | await =>
              cases coAwait_flow (s := s.ran f) hs0 hst hcur h.unraised hfit.1 k
                (hthrow e.awaitable k hst hact) with
              | inl hready =>
                  obtain ⟨hready, s1, target, v, -, heq⟩ := hready
                  have hdur : e.dur s.now = 0 := Flow.dur_of_ready hfit.1 hready
                  have hon : ((s.ran f).coAwait c e.awaitable k).Expects (.ends c)
                      (s.now + Flow.durSeq s.now es) := by
                    refine running_on ?_ hnow (hk v) hfit.2
                    rw [heq]
                    simp [State.deliver, State.log, State.setStatus, State.setCoro]
                  simpa only [Flow.durSeq, hdur, Int.add_zero, Int.zero_add] using hon
              | inr hwaits =>
                  obtain ⟨-, a, t, hw, hexp⟩ := hwaits
                  have hon := State.Expects.suspended c a k t _ es hw hexp hk hfit.2
                  rw [Flow.durSeq, ← Int.add_assoc]
                  exact hon

theorem running (h : Step.Plainly s l s') {f : P.Frame} {es : List (Flow P.User)}
    (hst : (s.coros c).status = .running f) (hp : Performs f es) (hfit : Flow.FitAll P es) :
    s.Upholds l s' (.ends c) (s.now + Flow.durSeq s.now es) := by
  have hcur := h.single.running c f hst
  have hlt : c < s.nextCoro := h.single.sound.tidy.fresh.lt_of_status (by simp [hst])
  by_cases hl : l = .exec c
  · subst hl
    exact h.acts hst hp hfit
  have hends : ¬ s.Ends c l := fun ⟨g, v, heq, _⟩ => hl heq
  have hnot : ∀ u, l ≠ .step u := by
    rintro u rfl
    have hnone : s.current = none := h.free.sequential
    rw [hcur] at hnone
    cases hnone
  have hsame := h.step.status_same h.single.sound h.free.ne_reset hlt hl
    fun u hu => absurd hu (hnot u)
  obtain ⟨gone, own, ho⟩ := h.single.sound.owned
  have hnow := (h.step.kept h.single.sound.tidy h.free.ne_reset ho).now
  refine .inr ⟨hends, running_on (hsame.trans hst) ?_ hp hfit⟩
  rw [hnow]
  cases l with
  | step u => exact absurd rfl (hnot u)
  | advance deadline =>
      have hnone := h.free.between deadline rfl
      rw [hcur] at hnone
      cases hnone
  | _ => rfl

/-- Process `c` that has ended after the transition has a value if it needs one. -/
theorem valued {d : CoroId} (h : Step.Plainly s l s') (hv : s.Valued d) : s'.Valued d := by
  have hkept := h.step.coroKept h.single.sound h.free hv.called fun f v _ hst => by
    rw [hv.finished] at hst
    cases hst
  have hle := h.step.nextCoro_le h.single.sound h.free.ne_reset
  refine ⟨Nat.lt_of_lt_of_le hv.called hle, hkept.finished hv.finished, ?_⟩
  rw [hkept.void, hkept.returnValue]
  exact hv.value

theorem waitsIn (h : Step.Plainly s l s') {a : Awaitable P.User}
    {k : Result P.Value P.Error → P.Frame} (hw : s.WaitsIn c a k t)
    (hexp : s.Expects (.fires t) n) (hl : l ≠ .step t) : s'.WaitsIn c a k t := by
  obtain ⟨gone, own, ho⟩ := h.single.sound.owned
  have hlive := hexp.live
  have hlt : t < s.nextToken := ho.live_lt hlive
  have hc : c < s.nextCoro := h.single.sound.tidy.fresh.lt_of_status (by simp [hw.status])
  have hans := h.single.sources c t (by simp) ⟨hlive, hw.handler, hw.coroData⟩
  have hidle : ∀ f, (s.coros c).status ≠ .running f := by simp [hw.status]
  have hsame := h.status_same hans hl (h.not_exec hidle) hc
  have hm := h.step.moves h.single.sound
  have hlt' : t < (s.popped l).nextToken := by cases l <;> exact hlt
  have hfields := hm.fields t hlt'
  have hpop : (s.popped l).tokens t = s.tokens t := by cases l <;> rfl
  rw [hpop] at hfields
  refine ⟨hsame.trans hw.status, hw.token, hfields.1.trans hw.handler,
    hfields.2.trans hw.coroData, hw.checks, fun p tkn ha => ?_⟩
  cases hw.value p tkn ha with
  | inr hv => exact .inr (h.valued hv)
  | inl hmem =>
      have hown := ho.completion p.coro t hmem
      have hu : (s.coros p.coro).unique = false := by
        cases hexp with
        | pending _ hq =>
            rw [ho.queue t hq] at hown
            cases hown
        | completion d _ _ hd hu =>
            rw [ho.completion d t hd] at hown
            cases hown
            exact hu
        | output i _ _ _ _ hout =>
            rw [ho.output i t hout] at hown
            cases hown
      by_cases hends : s.Ends p.coro l
      · obtain ⟨v, hcl, hval⟩ := h.step.closes h.single.sound hends
        obtain ⟨f, hf⟩ := hends.running
        have hp := h.single.sound.tidy.fresh.lt_of_status (c := p.coro) (by simp [hf])
        exact .inr ⟨by rw [hcl.nextCoro]; exact hp, by rw [hcl.self], hval⟩
      · have hp : p.coro < s.nextCoro := Nat.lt_of_not_le fun hle => by
          rw [h.single.sound.tidy.fresh p.coro hle] at hmem
          cases hmem
        have hkept := h.step.coroKept h.single.sound h.free hp fun f v hl hst hact =>
          hends ⟨f, v, hl, hst, hact⟩
        exact .inl (hkept.completion hu t hmem)

theorem suspended (h : Step.Plainly s l s') {a : Awaitable P.User}
    {k : Result P.Value P.Error → P.Frame} {es : List (Flow P.User)} (hw : s.WaitsIn c a k t)
    (hexp : s.Expects (.fires t) n) (hp : ∀ v, Performs (k (.ok v)) es)
    (hfit : Flow.FitAll P es) (ih : s.Upholds l s' (.fires t) n) :
    s.Upholds l s' (.ends c) (n + Flow.durSeq n es) := by
  have hidle : ∀ f, (s.coros c).status ≠ .running f := by simp [hw.status]
  refine .inr ⟨not_ends hidle, ?_⟩
  by_cases hl : l = .step t
  · subst hl
    obtain ⟨hq, hst, hnow⟩ := h.step.popped h.single.sound
    have htime := hexp.time h.single.sound hq
    have hge := hexp.now_le
    have hmax : s'.now = n := by omega
    obtain ⟨v, hrun⟩ := hw.resumes hst h.single.sound h.unraised hq
    rw [← hmax]
    exact .running c (k (.ok v)) es hrun (hp v) hfit
  · exact .suspended c a k t n es (h.waitsIn hw hexp hl) (ih hl) hp hfit

end Step.Plainly

/-- Every transition upholds what is expected. -/
theorem Step.Plainly.upholds {o : Occurrence} (h : Step.Plainly s l s') (he : s.Expects o n) :
    s.Upholds l s' o n := by
  induction he with
  | pending t hq hnow => exact h.pending hq hnow
  | completion c t n ht hu hlat hc ih => exact h.completion ht hu hlat hc ih
  | output i t ts due n hout hlat hts hdue hn ih => exact h.output hout hlat hts hdue hn ih
  | initial c f t es hst hq hh hcd hnow hp hfit => exact h.initial hst hq hh hcd hnow hp hfit
  | running c f es hst hp hfit => exact h.running hst hp hfit
  | suspended c a k t n es hw hexp hp hfit ih => exact h.suspended hw hexp hp hfit ih

end Cxxdes
