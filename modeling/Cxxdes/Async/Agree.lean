-- SUMMARY: A process that is started by async and awaited once runs the same as a shared and as a unique process, unless it fails.
import Cxxdes.Async.Null

/-!
# async with shared and with unique processes

The runs of a program whose process is a `coroutine<T>` and of the same program with a
`unique_coroutine<T>` are matched step by step. Until the process ends the environments differ in
its completion tokens only. From then on the shared run has one token more, the null token; its
execution is a step of the shared run alone, after which the clocks may differ until the next
token is executed. There is a next token if the waiter's token is not due before the null token.
-/

namespace Cxxdes

variable {P : Program} {s s' t t' : State P} {c d : CoroId} {z u : TokenId} {v : Retype}
  {l : Label P}

/-! ### The token on top -/

theorem Retyped.keysKept (h : Retyped v s s') (hk : s.KeysKept) : s'.KeysKept := by
  intro u hu
  obtain ⟨hu, hne⟩ := h.mem_queue.mp hu
  rw [h.token hne, h.pushed hne]
  exact hk u hu

/-- Time and priority of a token. -/
def State.rankOf (s : State P) (u : TokenId) : Lex (Int × Int) :=
  toLex ((s.tokens u).time, (s.tokens u).priority)

/-- Among ordinary tokens, in a heap that is in order, the top is a least one. -/
theorem State.isTop_iff (hh : s.Heaped) (hk : s.KeysKept)
    (hp : ∀ u ∈ s.queue, (s.tokens u).hasPriority = false) :
    s.IsTop u ↔ u ∈ s.queue ∧ ∀ w ∈ s.queue, s.rankOf u ≤ s.rankOf w := by
  constructor
  · exact fun htop => ⟨htop.1, htop.least hh hk hp⟩
  · rintro ⟨hu, hleast⟩
    refine ⟨hu, fun _ _ => ⟨hu, fun _ w hw => ?_⟩⟩
    rw [servedAfter_iff (hp w hw)]
    exact not_lt.mpr (hleast w hw)

/-- Without an exception-only token. -/
theorem State.ordinary (h : ¬ s.ErrorPending) : ∀ u ∈ s.queue, (s.tokens u).hasPriority = false :=
  fun u hu => by
    cases hp : (s.tokens u).hasPriority with
    | false => rfl
    | true => exact absurd ⟨u, hu, hp⟩ h

theorem Retyped.isTop_iff_least (h : Retyped v s s') (hh : s.Heaped) (hk : s.KeysKept)
    (hno : ¬ s.ErrorPending) :
    s'.IsTop u ↔ (u ∈ s.queue ∧ v.null ≠ some u) ∧
      ∀ w ∈ s.queue, v.null ≠ some w → s.rankOf u ≤ s.rankOf w := by
  have hrank : ∀ w, v.null ≠ some w → s'.rankOf w = s.rankOf w := fun w hw => by
    unfold State.rankOf
    rw [h.token hw]
  have hp : ∀ w ∈ s'.queue, (s'.tokens w).hasPriority = false := fun w hw => by
    obtain ⟨hw, hne⟩ := h.mem_queue.mp hw
    rw [h.token hne]
    exact State.ordinary hno w hw
  rw [State.isTop_iff (h.heaps.heaped hh) (h.keysKept hk) hp, h.mem_queue]
  constructor
  · rintro ⟨hu, hleast⟩
    refine ⟨hu, fun w hw hne => ?_⟩
    rw [← hrank u hu.2, ← hrank w hne]
    exact hleast w (h.mem_queue.mpr ⟨hw, hne⟩)
  · rintro ⟨hu, hleast⟩
    refine ⟨hu, fun w hw => ?_⟩
    obtain ⟨hw, hne⟩ := h.mem_queue.mp hw
    rw [hrank u hu.2, hrank w hne]
    exact hleast w hw hne

/-- The queues are the same where the null token is not pending. -/
theorem Retyped.isTop (h : Retyped v s s') (hk : s.KeysKept)
    (hz : ∀ z, v.null = some z → z ∉ s.queue) : s'.IsTop u ↔ s.IsTop u := by
  have hne : ∀ w ∈ s.queue, v.null ≠ some w := fun w hw hn => hz w hn hw
  have hq := h.queue_same hz
  have hafter : ∀ a ∈ s.queue, ∀ b ∈ s.queue, s'.servedAfter a b ↔ s.servedAfter a b := by
    intro a ha b hb
    unfold State.servedAfter
    rw [h.token (hne a ha), h.token (hne b hb)]
  have hserved := WeakOrder.Served.congr (a := u) hafter
  unfold State.IsTop
  rw [hq]
  constructor
  · rintro ⟨hu, htop⟩
    exact ⟨hu, fun hh _ => hserved.mp (htop (h.heaps.heaped hh) (h.keysKept hk))⟩
  · rintro ⟨hu, htop⟩
    exact ⟨hu, fun hh _ => hserved.mpr (htop (h.heaps.back hz hh) hk)⟩

/-! ### The condition -/

/-- A call of the program that owns the environment, outside `run()`. -/
def Label.Outside : Label P → Prop
  | .step _ => False
  | .exec _ => False
  | _ => True

/-- `step()` is not called by a body. -/
def Calm (s : State P) (l : Label P) : Prop :=
  ∀ t, l = .step t → s.current = none

/-- `u` is pending, or the last token that was executed. -/
def State.Due (s : State P) (u : TokenId) : Prop :=
  u ∈ s.queue ∨ s.executed.getLast? = some u

/-- The handle is awaited once before the process `c` ends: when `c` ends it has the completion
token `z` of `async` and one more. -/
structure AwaitedOnce (c : CoroId) (z : TokenId) (s : State P) (l : Label P) : Prop where
  calm : Calm s l
  once : ∀ f, l = .exec c → (s.coros c).status = .running f → (s.next f).Ends →
    ∃ w, (s.coros c).completionTokens = [z, w]

/-- The process does not fail. When it ends, the return latency of the handle that `async` has got,
which is the time of `z`, is at most that of the handle that is awaited. While `z` is due, the heap
is in order, and the program does nothing but `run()`. -/
structure Unfailing (c : CoroId) (z : TokenId) (s : State P) (l : Label P) : Prop where
  returns : ∀ f e, l = .exec c → (s.coros c).status = .running f → s.next f ≠ .throw e
  latency : ∀ f w, l = .exec c → (s.coros c).status = .running f → (s.next f).Ends →
    (s.coros c).completionTokens = [z, w] → (s.tokens z).time ≤ (s.tokens w).time
  ordered : s.Due z → s.Heaped
  inside : s.Due z → ¬ l.Outside

/-- The steps that shared and unique processes have in common. -/
def Smooth (c : CoroId) (z : TokenId) (s : State P) (l : Label P) : Prop :=
  AwaitedOnce c z s l ∧ Unfailing c z s l

/-- What holds in every environment of the shared run. -/
structure Regular (s : State P) : Prop where
  sound : Sound s
  sole : s.Sole
  fits : s.Fits
  clock : 0 ≤ s.now

/-- The execution of `z`, while it is pending, does not set the clock, or another token will be
executed then or later. -/
def State.Ahead (s : State P) (z : TokenId) : Prop :=
  z ∈ s.queue → (s.tokens z).time ≤ s.now ∨
    ∃ w ∈ s.queue, w ≠ z ∧ (s.tokens z).time ≤ (s.tokens w).time

/-- The clock of the unique run is `n`: that of the shared run, or, after the execution of the
null token, one that the execution of any pending token brings to the same time. -/
def State.Clock (s : State P) (z : TokenId) (n : Int) : Prop :=
  n = s.now ∨ (s.executed.getLast? = some z ∧ s.current = none ∧ s.queue ≠ [] ∧
    ∀ t ∈ s.queue, max (s.tokens t).time n = max (s.tokens t).time s.now)

/-- The process goes on: the environments have the same tokens. -/
structure Before (c : CoroId) (z : TokenId) (s s' : State P) (v : Retype) : Prop where
  retyped : Retyped v s s'
  coro : v.coro = c
  null : v.null = none
  waits : s.NullToken c z
  unscheduled : z ∉ s.scheduled

/-- The process has ended: the null token is in the shared run only. `u'` is the environment of
the unique run with the clock of the shared one. -/
structure After (c : CoroId) (z : TokenId) (s s' : State P) (v : Retype) (u' : State P) : Prop where
  retyped : Retyped v s u'
  clock : s' = { u' with now := s'.now }
  behind : s.Clock z s'.now
  ahead : s.Ahead z
  coro : v.coro = c
  null : v.null = some z
  ended : (s.coros c).status = .finished
  eptr : (s.tokens z).eptr = none

/-- `s` is an environment of the shared run, `s'` one of the unique run. -/
structure Agree (c : CoroId) (z : TokenId) (s s' : State P) : Prop where
  handler : (s.tokens z).handler = none
  coroData : (s.tokens z).coroData = none
  phase : (∃ v, Before c z s s' v) ∨ ∃ v u', After c z s s' v u'

/-! ### One transition -/

theorem Step.wiring (hstep : Step s l t) (hs : Sound s) (hlt : z < s.nextToken) :
    (t.tokens z).handler = (s.tokens z).handler ∧
      (t.tokens z).coroData = (s.tokens z).coroData := by
  have hf := (hstep.moves hs).fields z (by cases l <;> exact hlt)
  cases l <;> exact hf

theorem Step.unheld (hstep : Step s l t) (hs : Sound s) (hlt : z < s.nextToken)
    (hno : ¬ s.Held z) : t.tokens z = s.tokens z := by
  have hf := (hstep.moves hs).unheld z (by cases l <;> exact hlt) (by cases l <;> exact hno)
  cases l <;> exact hf

theorem Regular.step (h : Regular s) (hcalm : Calm s l) (hstep : Step s l t) : Regular t where
  sound := hstep.sound h.sound
  sole := hstep.sole h.sound.tidy (fun u hu _ => hcalm u hu) h.sole
  fits := hstep.fits h.fits
  clock := by
    by_cases hl : l = .reset
    · subst hl
      cases hstep
      exact Int.le_refl _
    · obtain ⟨gone, own, ho⟩ := h.sound.owned
      rw [(hstep.kept h.sound.tidy hl ho).now]
      cases l with
      | step u => exact h.clock.trans (Int.le_max_right _ _)
      | advance deadline => exact h.clock.trans (Int.le_max_left _ _)
      | call | bind | elsewhere | exec | reset => exact h.clock

theorem Reachable.regular {C : State P → Label P → Prop} (h : Reachable C s)
    (hC : ∀ s l, C s l → Calm s l) : Regular s := by
  obtain ⟨m, hruns⟩ := h
  refine hruns.invariant (fun _ _ _ hs hc hstep => hs.step (hC _ _ hc) hstep) ?_
  exact ⟨Sound.init m, fun c f hf => (by cases hf), fun t ht => absurd ht (Nat.not_lt_zero t),
    Int.le_refl _⟩

/-- A pending token that is executed sets the clock. -/
theorem Step.ahead (hstep : Step s l t) (hs : Sound s) (hlt : z < s.nextToken) (hno : ¬ s.Held z)
    (h : s.Ahead z) : t.Ahead z := by
  intro hz
  have hl : l ≠ .reset := by
    rintro rfl
    cases hstep
    cases hz
  obtain ⟨gone, own, ho⟩ := hs.owned
  have hk := hstep.kept hs.tidy hl ho
  have hnew : z ∈ (s.popped l).queue ∨ (s.popped l).Held z ∨ (s.popped l).nextToken ≤ z :=
    (hstep.moves hs).queue z hz
  have hzb : z ∈ (s.begun l).queue := by
    rcases hnew with hq | hheld | hge
    · cases l <;> exact hq
    · exact absurd (by cases l <;> exact hheld) hno
    · exact absurd (by cases l <;> exact hge) (Nat.not_le.mpr hlt)
  have htok : ∀ u, (s.begun l).tokens u = s.tokens u := fun u => by cases l <;> rfl
  have hzs : z ∈ s.queue := by
    cases l with
    | step u => exact List.mem_of_mem_erase hzb
    | call | bind | elsewhere | exec | reset | advance => exact hzb
  rw [hk.token z hzb, htok, hk.now]
  rcases h hzs with hnow | ⟨w, hw, hne, hle⟩
  · refine .inl (hnow.trans ?_)
    cases l with
    | step u => exact Int.le_max_right _ _
    | advance deadline => exact Int.le_max_left _ _
    | call | bind | elsewhere | exec | reset => exact Int.le_refl _
  · by_cases hu : l = .step w
    · subst hu
      exact .inl (hle.trans (Int.le_max_left _ _))
    · have hwb : w ∈ (s.begun l).queue := by
        cases l with
        | step u =>
            refine (List.mem_erase_of_ne ?_).mpr hw
            rintro rfl
            exact hu rfl
        | call | bind | elsewhere | exec | reset | advance => exact hw
      exact .inr ⟨w, hk.queue w hwb, hne, by rw [hk.token w hwb, htok]; exact hle⟩

/-- A token that is still held has not been scheduled. -/
theorem Step.unscheduled (hstep : Step s l t) (hs : Sound s) (hno : z ∉ s.scheduled)
    (hheld : t.Held z) : z ∉ t.scheduled := by
  obtain ⟨ts, hts, hnew⟩ := (hstep.moves hs).pushed
  have hpop : (s.popped l).scheduled = s.scheduled := by cases l <;> rfl
  rw [hts, hpop]
  intro hz
  cases List.mem_append.mp hz with
  | inl hz => exact hno hz
  | inr hz => exact (hnew z hz).2.1 hheld

theorem Retype.SameOk.ok_left {r' : Except Fault (State P)} (h : v.SameOk (.ok t) r') :
    ∃ t', r' = .ok t' ∧ Retyped v t t' := by
  cases h with
  | ok h => exact ⟨_, rfl, h⟩

/-- The process `c` has ended: `z` and the token `w` of the waiter have been scheduled. -/
structure Left (c : CoroId) (z w : TokenId) (s t : State P) : Prop where
  ended : (t.coros c).status = .finished
  eptr : (t.tokens z).eptr = (s.tokens z).eptr
  ne : w ≠ z
  pending : w ∈ t.queue
  earlier : (t.tokens z).time ≤ (t.tokens w).time
  time : (t.tokens z).time = (s.tokens z).time + s.now

/-- An action of a body. The environments stay the same until the process ends. -/
theorem Before.exec (h : Before c z s s' v) (hs : Regular s) (hl : Smooth c z s (.exec d))
    (hex : s.exec d = .ok t) : ∃ t', s'.exec d = .ok t' ∧
      ((Retyped v t t' ∧ t.NullToken c z) ∨
        ∃ v' w, v'.coro = c ∧ v'.null = some z ∧ Retyped v' t t' ∧ Left c z w s t) := by
  obtain ⟨f, hst, hran⟩ := exec_ran hs.sound.tidy hex fun _ _ hf => hf.elim
  have hs1 : Sound (s.ran f) :=
    hs.sound.quiet (.of_coros rfl) rfl rfl rfl hs.sound.started.current
  obtain rfl := h.coro
  have hm : Retyped v (s.ran f) { s' with memory := (f.next s.memory s.now).1 } :=
    h.retyped.withMemory (f.next s.memory s.now).1
  by_cases hends : d = v.coro ∧ (s.next f).Ends
  · obtain ⟨rfl, hends⟩ := hends
    obtain ⟨w, hts⟩ := hl.1.once f rfl hst hends
    have hle := hl.2.latency f w rfl hst hends hts
    have hst' : (s'.coros v.coro).status = .running f := by rw [h.retyped.status, hst]
    have hnext : f.next s'.memory s'.now = f.next s.memory s.now := by
      rw [h.retyped.memory, h.retyped.now]
    rw [State.exec_of_running hst] at hex
    rw [State.exec_of_running hst', hnext]
    cases hact : s.next f with
    | tau | await | create | declare | move | bind =>
        rw [hact] at hends
        exact hends.elim
    | throw e => exact absurd hact (hl.2.returns f e rfl hst)
    | coReturn r =>
        unfold State.next at hact
        rw [hact] at hex ⊢
        obtain ⟨t', ht', hr⟩ :=
          hm.returns h.null hts hs1 ⟨f, hst⟩ h.unscheduled hs.fits hex
        obtain ⟨hfin, heptr⟩ := returnFrom_ended (z := z) hex
        obtain ⟨gone, own, ho⟩ := hs.sound.owned
        have hnd := ho.completionNodup v.coro
        have hrel : ∀ u ∈ (s.coros v.coro).completionTokens,
            u ∈ t.queue ∧ (t.tokens u).time = (s.tokens u).time + s.now := fun u hu =>
          returnFrom_released (s := s.ran f) hex hnd hu
        rw [hts] at hnd hrel
        have htz := (hrel z List.mem_cons_self).2
        obtain ⟨hw, htw⟩ := hrel w (List.mem_cons_of_mem _ (List.mem_singleton_self w))
        refine ⟨t', ht', .inr ⟨v.dropped (s.ran f) z, w, rfl, rfl, hr, hfin,
          heptr, ?_, hw, ?_, htz⟩⟩
        · rintro rfl
          exact (List.nodup_cons.mp hnd).1 (List.mem_singleton_self w)
        · rw [htz, htw]
          exact Int.add_le_add_right hle s.now
  · have hno : ∀ g, d = v.coro → (s.coros d).status = .running g → ¬ (s.next g).Ends := by
      intro g hd hg he
      rw [hst] at hg
      cases hg
      exact hends ⟨hd, he⟩
    have hsame := h.retyped.exec hno
    rw [hex] at hsame
    obtain ⟨t', ht', hr⟩ := hsame.ok_left
    have hw1 : (s.ran f).NullToken v.coro z := h.waits.congr (Nat.le_refl _) rfl rfl rfl
    exact ⟨t', ht', .inl ⟨hr, hw1.ran hs1 hran fun hd he => hends ⟨hd, he⟩⟩⟩

/-- The phase after an action of a body. -/
theorem Before.next (h : Before c z s s' v) (hs : Regular s) (hstep : Step s (.exec d) t)
    (hp : (Retyped v t t' ∧ t.NullToken c z) ∨
      ∃ v' w, v'.coro = c ∧ v'.null = some z ∧ Retyped v' t t' ∧ Left c z w s t) :
    (∃ v, Before c z t t' v) ∨ ∃ v u', After c z t t' v u' := by
  rcases hp with ⟨hr, hw⟩ | ⟨v', w, hco, hnull, hr, hleft⟩
  · exact .inl ⟨v, hr, h.coro, h.null, hw, hstep.unscheduled hs.sound h.unscheduled hw.held⟩
  · exact .inr ⟨v', t', hr, rfl, .inl hr.now,
      fun _ => .inr ⟨w, hleft.pending, hleft.ne, hleft.earlier⟩, hco, hnull, hleft.ended,
      hleft.eptr.trans h.waits.eptr⟩

/-- Where the tokens are the same, the sums of times are. -/
theorem Retyped.fits (h : Retyped v s s') (hs : s.Fits) : s'.Fits := by
  intro u hu
  rw [h.nextToken] at hu
  rw [h.tokens]
  unfold Token.retype
  split
  · exact h.known.time
  · exact hs u hu

theorem Retyped.fits_back (h : Retyped v s s') (hs' : s'.Fits)
    (hz : ∀ z, v.null = some z → timeIntegral.Fits (s.tokens z).time) : s.Fits := by
  intro u hu
  by_cases hn : v.null = some u
  · exact hz u hn
  · rw [← h.token hn]
    exact hs' u (h.nextToken ▸ hu)

/-- Where the unique run does not overflow, the shared run does not either. -/
theorem Before.fits_back (h : Before c z s s' v) (hs : Regular s) (hfits : t'.Fits)
    (hp : (Retyped v t t' ∧ t.NullToken c z) ∨
      ∃ v' w, v'.coro = c ∧ v'.null = some z ∧ Retyped v' t t' ∧ Left c z w s t)
    (hnext : ∀ w ∈ t.queue, w < t.nextToken) : t.Fits := by
  rcases hp with ⟨hr, -⟩ | ⟨v', w, -, hnull, hr, hleft⟩
  · exact hr.fits_back hfits fun z' hz' => by rw [h.null] at hz'; cases hz'
  · refine hr.fits_back hfits fun z' hz' => ?_
    rw [hnull] at hz'
    cases hz'
    have hz := hs.fits z (h.waits.lt_next hs.sound)
    have hne : v'.null ≠ some w := by
      rw [hnull]
      exact fun hzw => hleft.ne (Option.some.inj hzw).symm
    have hw := hfits w (hr.nextToken ▸ hnext w hleft.pending)
    rw [hr.token hne] at hw
    have hclock := hs.clock
    have hle := hleft.earlier
    rw [hleft.time] at hle ⊢
    exact ⟨hz.1.trans (by omega), hle.trans hw.2⟩

/-- Execution of a token. -/
theorem Before.step (h : Before c z s s' v) (hs : Sound s) (hstep : Step s (.step u) t)
    (hr : Retyped v t t') : Before c z t t' v := by
  cases hstep with
  | step _ _ htop hst hfits =>
      have hw := h.waits.stepped hs htop.1 (step_stepped hst)
      exact ⟨hr, h.coro, h.null, hw,
        Step.unscheduled (.step s u t htop hst hfits) hs h.unscheduled hw.held⟩

/-- Where the clocks are the same. -/
theorem After.same {u' : State P} (h : After c z s s' v u') (hn : s'.now = s.now) : s' = u' := by
  rw [h.clock, hn, ← h.retyped.now]

/-- The null token is pending, or was executed before. -/
theorem After.clock_of_pending {u' : State P} (h : After c z s s' v u') (hs : Sound s)
    (hz : z ∈ s.queue) : s'.now = s.now := by
  cases h.behind with
  | inl hn => exact hn
  | inr hlast =>
      obtain ⟨gone, own, ho⟩ := hs.owned
      have hex := ho.executed z (List.mem_of_getLast? hlast.1)
      rw [ho.queue z hz] at hex
      cases hex

theorem After.ne_pending {u' : State P} (h : After c z s s' v u') (hne : u ≠ z) :
    v.null ≠ some u := by
  rw [h.null]
  exact fun hz => hne (Option.some.inj hz).symm

/-- The execution of a token looks at the clock only to set it. -/
theorem State.step_withNow (n : Int)
    (hn : max (s.tokens u).time n = max (s.tokens u).time s.now) :
    ({ s with now := n } : State P).step u = s.step u := by
  have hp : ({ s with now := n } : State P).pop u = s.pop u := by
    unfold State.pop
    simp only [hn]
  unfold State.step
  rw [hp]

theorem After.step_eq {u' : State P} (h : After c z s s' v u') (hne : u ≠ z)
    (hu : u ∈ s.queue) : s'.step u = u'.step u := by
  rw [h.clock]
  apply State.step_withNow
  rw [h.retyped.token (h.ne_pending hne), h.retyped.now]
  cases h.behind with
  | inl hn => rw [hn]
  | inr hlast => exact hlast.2.2.2 u hu

/-- What a transition of both runs leaves. -/
theorem After.next {u' : State P} (h : After c z s s' v u') (hs : Sound s) (hstep : Step s l t)
    (hr : Retyped v t t') : After c z t t' v t' where
  retyped := hr
  clock := rfl
  behind := .inl hr.now
  ahead := by
    obtain ⟨hlt, hno⟩ := h.retyped.known.null z h.null
    exact hstep.ahead hs hlt hno h.ahead
  coro := h.coro
  null := h.null
  ended := hstep.ended hs.tidy (h.coro ▸ h.retyped.known.coro) h.ended
  eptr := by
    obtain ⟨hlt, hno⟩ := h.retyped.known.null z h.null
    rw [hstep.unheld hs hlt hno]
    exact h.eptr

/-- A body runs only where the clocks are the same. -/
theorem After.running {u' : State P} {f : P.Frame} (h : After c z s s' v u') (hsole : s.Sole)
    (hst : (s.coros d).status = .running f) : s' = u' ∧ d ≠ v.coro := by
  constructor
  · cases h.behind with
    | inl hn => exact h.same hn
    | inr hlast =>
        have hcur := hsole d f hst
        rw [hlast.2.1] at hcur
        cases hcur
  · rintro rfl
    rw [h.coro, h.ended] at hst
    cases hst

theorem After.exec {u' : State P} (h : After c z s s' v u') (hsole : s.Sole)
    (hex : s.exec d = .ok t) : ∃ t', s'.exec d = .ok t' ∧ Retyped v t t' := by
  obtain ⟨f, hst, -⟩ := exec_acted hex
  obtain ⟨rfl, hne⟩ := h.running hsole hst
  have hsame := h.retyped.exec (c := d) fun _ hd => absurd hd hne
  rw [hex] at hsame
  exact hsame.ok_left

theorem After.step {u' : State P} (h : After c z s s' v u') (hne : u ≠ z) (hu : u ∈ s.queue)
    (hst : s.step u = .ok t) : ∃ t', s'.step u = .ok t' ∧ Retyped v t t' := by
  have hsame := h.retyped.step (h.ne_pending hne)
  rw [hst] at hsame
  obtain ⟨t', ht', hr⟩ := hsame.ok_left
  exact ⟨t', (h.step_eq hne hu).trans ht', hr⟩

/-- Where the unique run does not overflow, the shared run does not either: nothing changes the
null token. -/
theorem After.fits_back {u' : State P} (h : After c z s s' v u') (hs : Regular s)
    (hm : Moves (s.popped l) t) (hr : Retyped v t t') (hfits : t'.Fits) : t.Fits := by
  refine hr.fits_back hfits fun z' hz' => ?_
  rw [h.null] at hz'
  cases hz'
  obtain ⟨hlt, hno⟩ := h.retyped.known.null z h.null
  have htok : t.tokens z = s.tokens z :=
    (hm.unheld z (by cases l <;> exact hlt) (by cases l <;> exact hno)).trans (by cases l <;> rfl)
  rw [htok]
  exact hs.fits z hlt

/-- The execution of the null token is a step of the shared run alone. -/
theorem After.skip {u' : State P} (h : After c z s s' v u') (hs : Sound s)
    (hcur : s.current = none) (htop : s.IsTop z) (hheap : s.Heaped) :
    After c z (s.pop z) s' v { u' with now := (s.pop z).now } where
  retyped := by
    have hz : v.keeps z = false := by simp [Retype.keeps, h.null]
    have hq : (s.queue.erase z).filter v.keeps = s.queue.filter v.keeps := by
      rw [← List.erase_filter]
      exact List.erase_of_not_mem (by simp [List.mem_filter, hz])
    have hex : (s.executed ++ [z]).filter v.keeps = s.executed.filter v.keeps := by
      rw [List.filter_append, List.filter_singleton, hz]
      exact List.append_nil _
    refine ⟨?_, h.retyped.known.keep (Nat.le_refl _) (Nat.le_refl _) fun _ _ hh => hh, ?_⟩
    · obtain ⟨legal, he⟩ := h.retyped.eq
      refine ⟨legal, ?_⟩
      rw [he]
      unfold State.pop State.withLegal State.retype
      simp only [hq, hex]
    · refine ⟨fun _ => h.retyped.heaps.heaped hheap, fun _ _ => ?_, fun hn => ?_⟩
      · exact hheap.imp (List.length_erase_le.trans ·) id
      · rw [h.null] at hn
        cases hn
  clock := h.clock
  behind := by
    have hn := h.clock_of_pending hs htop.1
    obtain ⟨gone, own, ho⟩ := hs.owned
    have hleast := ho.least hheap htop
    rcases h.ahead htop.1 with hnow | ⟨w, hw, hne, -⟩
    · exact .inl (hn.trans (Int.max_eq_right hnow).symm)
    · have hmem : w ∈ (s.pop z).queue := (List.mem_erase_of_ne hne).mpr hw
      refine .inr ⟨by simp [State.pop], hcur, List.ne_nil_of_mem hmem, fun w hw => ?_⟩
      have hle := Prod.Lex.le_iff.mp (hleast w (List.mem_of_mem_erase hw))
      have htime : (s.tokens z).time ≤ (s.tokens w).time := by
        rcases hle with hlt | ⟨heq, -⟩
        · exact Int.le_of_lt hlt
        · exact Int.le_of_eq heq
      rw [hn]
      change max (s.tokens w).time s.now = max (s.tokens w).time (max (s.tokens z).time s.now)
      rw [← max_assoc, max_eq_left htime]
  ahead hz := by
    -- the null token is not pending any more
    obtain ⟨gone, own, ho⟩ := hs.owned
    exact absurd hz (ho.queueNodup.not_mem_erase)
  coro := h.coro
  null := h.null
  ended := h.ended
  eptr := h.eptr

/-- A call from outside, where the null token is not pending. -/
theorem Retyped.outside (h : Retyped v s s') (hk : s.KeysKept)
    (hz : ∀ z, v.null = some z → z ∉ s.queue) (hout : l.Outside) (hstep : Step s l t) :
    ∃ t', Step s' l t' ∧ Retyped v t t' := by
  cases hstep with
  | step | exec => exact hout.elim
  | call f o => exact ⟨_, .call s' f o, h.newCoro _ o⟩
  | bind a hvalid hfits =>
      exact ⟨_, .bind s' a (by rw [h.movedFrom]; exact hvalid) ((h.bind a).fits hfits), h.bind a⟩
  | elsewhere q henv => exact ⟨_, .elsewhere s' q ((h.env q).trans henv), h.elsewhere q⟩
  | advance deadline hd hfits =>
      refine ⟨_, .advance s' deadline ?_ hfits, h.advance deadline⟩
      rcases hd with hq | ⟨u, htop, hlt⟩
      · refine .inl ?_
        rw [h.queue, hq]
        rfl
      · refine .inr ⟨u, (h.isTop hk hz).mpr htop, ?_⟩
        rw [h.token fun hn => hz u hn htop.1]
        exact hlt
  | reset hcur hrun =>
      exact ⟨_, .reset s' (h.current.trans hcur) fun q f hf => hrun q f (by
        rw [← h.status]
        exact hf), h.reset⟩

/-! ### Runs -/

theorem Agree.lt_next (h : Agree c z s s') (hs : Sound s) : z < s.nextToken := by
  rcases h.phase with ⟨v, hb⟩ | ⟨v, u', ha⟩
  · exact hb.waits.lt_next hs
  · exact (ha.retyped.known.null z ha.null).1

theorem Agree.of_phase (h : Agree c z s s') (hs : Sound s) (hstep : Step s l t)
    (hp : (∃ v, Before c z t t' v) ∨ ∃ v u', After c z t t' v u') : Agree c z t t' := by
  obtain ⟨hh, hc⟩ := hstep.wiring hs (h.lt_next hs)
  exact ⟨hh.trans h.handler, hc.trans h.coroData, hp⟩

theorem Agree.current (h : Agree c z s s') : s'.current = s.current := by
  rcases h.phase with ⟨v, hb⟩ | ⟨v, u', ha⟩
  · exact hb.retyped.current
  · rw [ha.clock]
    exact ha.retyped.current

/-- A call from outside is the same in both runs. -/
theorem Agree.outside (h : Agree c z s s') (hs : Sound s) (hout : l.Outside)
    (hdue : ¬ s.Due z) (hstep : Step s l t) : ∃ t', Step s' l t' ∧ Agree c z t t' := by
  obtain ⟨gone, own, ho⟩ := hs.owned
  rcases h.phase with ⟨v, hb⟩ | ⟨v, u', ha⟩
  · obtain ⟨t', hst, hr⟩ := hb.retyped.outside ho.keys
      (fun z hz => by rw [hb.null] at hz; cases hz) hout hstep
    have hw := hb.waits.step hs hstep fun f hl => by
      subst hl
      exact hout.elim
    exact ⟨t', hst, h.of_phase hs hstep
      (.inl ⟨v, hr, hb.coro, hb.null, hw, hstep.unscheduled hs hb.unscheduled hw.held⟩)⟩
  · have hn : s'.now = s.now := by
      cases ha.behind with
      | inl hn => exact hn
      | inr hlast => exact absurd (.inr hlast.1) hdue
    obtain rfl := ha.same hn
    obtain ⟨t', hst, hr⟩ := ha.retyped.outside ho.keys (fun z' hz => by
      rw [ha.null] at hz
      cases hz
      exact fun hq => hdue (.inl hq)) hout hstep
    exact ⟨t', hst, h.of_phase hs hstep (.inr ⟨v, t', ha.next hs hstep hr⟩)⟩

/-- A heap that is in order and holds two tokens holds no exception-only token. -/
theorem Owned.not_errorPending {gone : List TokenId} {own : TokenId → Owner}
    (ho : Owned gone s own) (hheap : s.Heaped) (hz : z ∈ s.queue) (hu : u ∈ s.queue)
    (hne : u ≠ z) : ¬ s.ErrorPending := by
  rintro ⟨e, he, hp⟩
  rcases hheap with hlen | hlegal
  · obtain ⟨w, hw⟩ := List.length_eq_one_iff.mp
      (Nat.le_antisymm hlen (List.length_pos_of_mem hu))
    rw [hw, List.mem_singleton] at hz hu
    exact hne (hu.trans hz.symm)
  · rw [ho.hasPriority hlegal he] at hp
    cases hp

/-- Among the pending tokens other than the null token the top stays the same. -/
theorem After.isTop {u' : State P} (h : After c z s s' v u') (hs : Sound s) (hne : u ≠ z)
    (hheap : z ∈ s.queue → s.Heaped) (htop : s.IsTop u) : s'.IsTop u := by
  obtain ⟨gone, own, ho⟩ := hs.owned
  rw [h.clock]
  change u'.IsTop u
  by_cases hq : z ∈ s.queue
  · have hno := ho.not_errorPending (hheap hq) hq htop.1 hne
    refine (h.retyped.isTop_iff_least (hheap hq) ho.keys hno).mpr ?_
    exact ⟨⟨htop.1, h.ne_pending hne⟩, fun w hw _ => ho.least (hheap hq) htop w hw⟩
  · refine (h.retyped.isTop ho.keys fun z' hz' => ?_).mpr htop
    rw [h.null] at hz'
    cases hz'
    exact hq

end Cxxdes
