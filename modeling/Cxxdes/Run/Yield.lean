-- SUMMARY: Which pending tokens are executed before a process is resumed from yield(), over every choice of the priority queue.
import Cxxdes.Run.Leftovers

/-!
# yield()

`yield()` is `delay(0)`: its token is scheduled at the current time. Tokens that are due
earlier, or at the same time with a smaller priority, are executed before it. A token
with the same time and priority may be executed before or after it: `token_comp` does not
tell them apart, and the heap is not stable. A heap that exception-only tokens have left in
disorder promises nothing.
-/

namespace Cxxdes

variable {P : Program} {s s' s1 s2 s3 : State P} {c : CoroId} {p : Int} {t u y : TokenId}

/-! ### The await -/

/-- `co_await yield()` schedules its token and suspends. -/
theorem coAwait_yield (s : State P) (c : CoroId) (own : Int) (tkn : Option TokenId)
    (k : Result P.Value P.Error → P.Frame) :
    s.coAwait c (.timeout true 0 own tkn) k =
      ((s.newToken ⟨s.now + 0, resolvePriority own (s.coros c).priority, s.current, none,
        none⟩).scheduleToken s.nextToken).suspend c
          (.timeout true 0 (resolvePriority own (s.coros c).priority) (some s.nextToken)) k := rfl

/-- The process `c` has awaited `yield()` with priority `p`, and `y` is the token. -/
structure Yielded (s : State P) (c : CoroId) (p : Int) (k : Result P.Value P.Error → P.Frame)
    (y : TokenId) (s1 : State P) : Prop where
  token : s1.tokens y = ⟨s.now, p, s.current, none, none⟩
  fresh : s.nextToken ≤ y ∧ y < s1.nextToken
  queue : s1.queue = s.queue ++ [y]
  legal : s1.legal = ((decide (s.queue.length ≤ 1) || s.legal) && !(s1.tokens y).hasPriority &&
    s.queue.all fun u => !(s.pushed u).hasPriority)
  others : ∀ u ≠ y, s1.tokens u = s.tokens u
  executed : s1.executed = s.executed
  status : (s1.coros c).status = .suspended (.timeout true 0 p (some y)) k
  current : s1.current = none

theorem Step.yielded {f : P.Frame} {own : Int} {tkn : Option TokenId}
    {k : Result P.Value P.Error → P.Frame} (hstep : Step s (.exec c) s1)
    (hst : (s.coros c).status = .running f) (hact : s.next f = .await (.timeout true 0 own tkn) k) :
    Yielded s c (resolvePriority own (s.coros c).priority) k s.nextToken s1 := by
  cases hstep with
  | exec _ _ hex =>
      obtain ⟨f', hst', hacted⟩ := exec_acted hex
      obtain rfl : f' = f := Status.running.inj (hst'.symm.trans hst)
      rw [hact] at hacted
      cases hacted with
      | await =>
          rw [coAwait_yield]
          refine ⟨?_, ⟨Nat.le_refl _, Nat.lt_succ_self _⟩, rfl, rfl, fun u hu => ?_, rfl, ?_, rfl⟩
          · simp [State.suspend, State.setStatus, State.setCoro, State.scheduleToken,
              State.newToken, State.ran]
          · exact Function.update_of_ne hu ..
          · simp only [State.suspend, State.setStatus, State.setCoro, Function.update_self]
            rfl

/-! ### What is executed before -/

/-- The heap is in order and no exception-only token is pending. -/
def State.Plain (s : State P) : Prop :=
  s.Heaped ∧ ∀ u ∈ s.queue, (s.tokens u).hasPriority = false

instance (s : State P) : Decidable s.Plain :=
  inferInstanceAs (Decidable (_ ∧ ∀ u ∈ s.queue, (s.tokens u).hasPriority = false))

/-- The tokens that are pending in `s` and due by time `s.now` and priority `p` are executed
before `y`, in every run from `s1` with the heap in order and no exception-only token pending. -/
def YieldsTo (s : State P) (p : Int) (y : TokenId) (s1 : State P) : Prop :=
  ∀ s2 s3, Transition.Runs Step (fun s _ => s.Plain) s1 s2 → s2.Plain → Step s2 (.step y) s3 →
    ∀ u ∈ s.queue, (s.tokens u).time ≤ s.now → (s.tokens u).priority ≤ p → u ∈ s2.executed

/-- Time and priority, in the order in which `token_comp` compares them. -/
def State.due (s : State P) (t : TokenId) : Lex (Int × Int) :=
  toLex ((s.tokens t).time, (s.tokens t).priority)

/-- `y` is not pending and never will be, or it is pending and so are the tokens `us` that
have not been executed, each of them due before `y`. -/
def Waiting (y : TokenId) (us : List TokenId) (s : State P) : Prop :=
  y < s.nextToken ∧ ¬ s.Held y ∧
    (y ∈ s.queue → ∀ u ∈ us, u ∈ s.executed ∨ (u ∈ s.queue ∧ s.due u < s.due y))

theorem Step.waiting {l : Label P} (hstep : Step s l s') (hs : Sound s) {us : List TokenId}
    (h : Waiting y us s) : Waiting y us s' := by
  obtain ⟨hlt, hfree, hus⟩ := h
  have hm := hstep.moves hs
  have hlt' : y < (s.popped l).nextToken := by cases l <;> exact hlt
  have hheld : (s.popped l).Held y → s.Held y := by cases l <;> exact id
  refine ⟨Nat.lt_of_lt_of_le hlt' hm.nextToken, fun hh => hfree (hheld (hm.held y hlt' hh)), ?_⟩
  intro hy' u hu
  obtain ⟨gone, own, ho⟩ := hs.owned
  obtain ⟨own', gone', ho', -⟩ := hstep.owned hs.tidy ho
  cases Classical.em (l = .reset) with
  | inl hreset =>
      subst hreset
      cases hstep
      cases hy'
  | inr hne =>
      have hk := hstep.orderKept hs.tidy hne ho ho'
      have hy : y ∈ s.queue := by
        rcases hm.queue y hy' with hq | hh | hge
        · cases l with
          | step t => exact List.mem_of_mem_erase hq
          | _ => exact hq
        · exact absurd (hheld hh) hfree
        · exact absurd hlt' (Nat.not_lt.mpr hge)
      have hdue : ∀ t ∈ s.queue, t ∈ s'.queue → s'.due t = s.due t := by
        intro t ht ht'
        have hkey := hk.keys t ht ht'
        unfold State.due
        rw [show (s'.tokens t).time = (s.tokens t).time from congrArg Key.time hkey,
          show (s'.tokens t).priority = (s.tokens t).priority from congrArg Key.priority hkey]
      cases hus hy u hu with
      | inl hex =>
          refine .inl ?_
          rw [hk.executed]
          cases l with
          | step t => exact List.mem_append_left _ hex
          | _ => exact hex
      | inr hq =>
          obtain ⟨hq, hlt⟩ := hq
          cases Classical.em (l = .step u) with
          | inl heq =>
              subst heq
              exact .inl (by rw [hk.executed]; exact List.mem_append_right _ (by simp))
          | inr hne =>
              have hq' := hk.pending u hq hne
              exact .inr ⟨hq', by rw [hdue u hq hq', hdue y hy hy']; exact hlt⟩

/-- What is due before `y` is executed before `y`. -/
theorem Waiting.executed {us : List TokenId} (h : Waiting y us s) (hs : Sound s) (hp : s.Plain)
    (hstep : Step s (.step y) s') : ∀ u ∈ us, u ∈ s.executed := by
  obtain ⟨gone, own, ho⟩ := hs.owned
  intro u hu
  cases hstep with
  | step _ _ htop hex =>
      refine (h.2.2 htop.1 u hu).resolve_right fun hq => ?_
      exact absurd (htop.least hp.1 ho.keys hp.2 u hq.1) (not_le.mpr hq.2)

theorem Waiting.runs {us : List TokenId} (h : Waiting y us s) (hs : Sound s)
    (hr : Transition.Runs Step (fun s _ => s.Plain) s s') : Sound s' ∧ Waiting y us s' := by
  refine hr.invariant (I := fun s => Sound s ∧ Waiting y us s) ?_ ⟨hs, h⟩
  rintro s l s' ⟨hs, h⟩ - hstep
  exact ⟨hstep.sound hs, hstep.waiting hs h⟩

namespace Yielded

variable {k : Result P.Value P.Error → P.Frame}

theorem due_self (h : Yielded s c p k y s1) : s1.due y = toLex (s.now, p) := by
  unfold State.due
  rw [h.token]

theorem due_other (h : Yielded s c p k y s1) (hu : u ≠ y) : s1.due u = s.due u := by
  unfold State.due
  rw [h.others u hu]

/-- Scheduling the token of the yield leaves the heap in order. -/
theorem heaped (h : Yielded s c p k y s1) {gone : List TokenId} {own : TokenId → Owner}
    (ho : Owned gone s own) (hp : s.Plain) (hcur : s.current = some c) : s1.Heaped := by
  have hold : (decide (s.queue.length ≤ 1) || s.legal) = true := by
    rcases hp.1 with hlen | hlegal
    · simp [hlen]
    · simp [hlegal]
  have hself : (s1.tokens y).hasPriority = false := by
    rw [h.token, hcur]
    rfl
  have hall : (s.queue.all fun u => !(s.pushed u).hasPriority) = true := by
    refine List.all_eq_true.mpr fun u hu => ?_
    rw [← ho.keys u hu]
    simpa [Token.key] using hp.2 u hu
  exact .inr (by rw [h.legal, hold, hself, hall]; rfl)

/-- If no pending token has the time and the priority of the yield, all that are due are
executed before it. -/
theorem yieldsTo (h : Yielded s c p k y s1) (hs : Sound s) (hs1 : Sound s1)
    (hno : ∀ u ∈ s.queue, ¬ ((s.tokens u).time = s.now ∧ (s.tokens u).priority = p)) :
    YieldsTo s p y s1 := by
  intro s2 s3 hruns hp2 hstep u hu htime hprio
  obtain ⟨gone, own, ho⟩ := hs.owned
  obtain ⟨gone1, own1, ho1⟩ := hs1.owned
  have hy : y ∈ s1.queue := by rw [h.queue]; simp
  have hwait : Waiting y [u] s1 := by
    refine ⟨h.fresh.2, ho1.queue_notHeld hy, fun _ v hv => .inr ?_⟩
    obtain rfl := List.mem_singleton.mp hv
    have hne : v ≠ y := Nat.ne_of_lt (Nat.lt_of_lt_of_le (ho.queue_lt hu) h.fresh.1)
    refine ⟨by rw [h.queue]; exact List.mem_append_left _ hu, ?_⟩
    rw [h.due_self, h.due_other hne]
    refine Prod.Lex.toLex_lt_toLex.mpr ?_
    cases Int.lt_or_eq_of_le htime with
    | inl hlt => exact .inl hlt
    | inr heq => exact .inr ⟨heq, lt_of_le_of_ne hprio fun heq' => hno v hu ⟨heq, heq'⟩⟩
  obtain ⟨hs2, hwait⟩ := hwait.runs hs1 hruns
  exact hwait.executed hs2 hp2 hstep u (List.mem_singleton.mpr rfl)

/-- If nothing is due strictly before the yield, its token may be executed at once. -/
theorem step_now (h : Yielded s c p k y s1) (hp : s1.Plain) (hcur : s.current = some c)
    (hfits : s1.Fits)
    (hleast : ∀ u ∈ s.queue, toLex (s.now, p) ≤ s.due u) (hlt : ∀ u ∈ s.queue, u ≠ y) :
    ∃ s2, Step s1 (.step y) s2 := by
  have hy : y ∈ s1.queue := by rw [h.queue]; simp
  have htop : s1.IsTop y := by
    refine ⟨hy, fun _ _ => ⟨hy, fun _ u hu => ?_⟩⟩
    rw [servedAfter_iff (hp.2 u hu)]
    change ¬ s1.due u < s1.due y
    rw [h.queue] at hu
    cases List.mem_append.mp hu with
    | inl hu =>
        rw [h.due_self, h.due_other (hlt u hu)]
        exact not_lt.mpr (hleast u hu)
    | inr hu =>
        rw [List.mem_singleton.mp hu]
        exact lt_irrefl _
  have hok : ∃ s2, s1.step y = .ok s2 ∧ s2.Fits := by
    have htkn : (s1.pop y).tokens y = ⟨s.now, p, some c, none, none⟩ := by
      rw [← hcur]
      exact h.token
    have hstat : ((s1.pop y).coros c).status = .suspended (.timeout true 0 p (some y)) k :=
      h.status
    unfold State.step
    simp only [htkn]
    unfold State.resume
    simp only [hstat]
    exact ⟨_, rfl, hfits⟩
  obtain ⟨s2, hok, hfits⟩ := hok
  exact ⟨s2, .step s1 y s2 htop hok hfits⟩

end Yielded

/-- A process `c` awaits `yield()` at time `s.now` with priority `p`. If no pending token has
that time and that priority, all pending tokens with time `≤ s.now` and priority `≤ p` are
executed before the token of the yield, whatever the queue chooses in between; if there is
such a token, the heap is in order and nothing is due strictly before the yield, the process may
be resumed first. In runs without leftovers of failed awaits, no other token resumes the
process. -/
theorem yield_yields {f : P.Frame} {own : Int} {tkn : Option TokenId}
    {k : Result P.Value P.Error → P.Frame} (h : Reachable (fun _ _ => True) s)
    (hstep : Step s (.exec c) s1) (hst : (s.coros c).status = .running f)
    (hact : s.next f = .await (.timeout true 0 own tkn) k)
    (hp : resolvePriority own (s.coros c).priority = p) :
    ((∀ u ∈ s.queue, ¬ ((s.tokens u).time = s.now ∧ (s.tokens u).priority = p)) →
      YieldsTo s p s.nextToken s1) ∧
    (s.Plain → s.current = some c → (∀ u ∈ s.queue, toLex (s.now, p) ≤ s.due u) →
      YieldsTo s p s.nextToken s1 →
      ∀ u ∈ s.queue, ¬ ((s.tokens u).time = s.now ∧ (s.tokens u).priority = p)) ∧
    (∀ (s2 : State P) a k', Reachable Cautious s2 → (s2.coros c).status = .suspended a k' →
      a.token = some s.nextToken → ∀ t ∈ s2.queue, s2.resumes t = some c → t = s.nextToken) := by
  have hs := h.sound
  have hs1 := hstep.sound hs
  have hy := hp ▸ hstep.yielded hst hact
  obtain ⟨gone, own, ho⟩ := hs.owned
  obtain ⟨gone1, own1, ho1⟩ := hs1.owned
  refine ⟨fun hno => hy.yieldsTo hs hs1 hno, fun hplain hcur hleast hyields u hu heq => ?_, ?_⟩
  · have hne : ∀ u ∈ s.queue, u ≠ s.nextToken := fun u hu => Nat.ne_of_lt (ho.queue_lt hu)
    have hplain1 : s1.Plain := by
      refine ⟨hy.heaped ho hplain hcur, fun v hv => ?_⟩
      rw [hy.queue] at hv
      cases List.mem_append.mp hv with
      | inl hv => rw [hy.others v (hne v hv)]; exact hplain.2 v hv
      | inr hv =>
          rw [List.mem_singleton.mp hv, hy.token, hcur]
          rfl
    obtain ⟨s2, hstep2⟩ := hy.step_now hplain1 hcur (hstep.fits h.fits) hleast hne
    have hex := hyields s1 s2 (.refl s1) hplain1 hstep2 u hu
      (Int.le_of_eq heq.1) (Int.le_of_eq heq.2)
    have hq : u ∈ s1.queue := by rw [hy.queue]; exact List.mem_append_left _ hu
    have hown := ho1.queue u hq
    rw [ho1.executed u hex] at hown
    cases hown
  · intro s2 a k' hc hsus htkn t hq hres
    exact Option.some.inj ((hc.answers hsus hq hres).symm.trans htkn)

/-- A process starts another one of smaller priority and yields to it. -/
abbrev host : Program where
  User := Nat
  Body := Nat
  Memory := Unit
  Value := Unit
  Error := Unit
  start := id
  next n m _ := (m, match n with
    | 0 => .create 2 { priority := -1 } fun p => p.coro + 3
    | 1 => .await (.timeout true 0 PriorityConsts.inherit none) fun _ => 2
    | 2 => .coReturn none
    | n + 3 => .bind { coro := n } fun _ => 1)

namespace host

/-- Process 0 is about to yield, and token 2 is to start process 1. -/
def ready : State host :=
  (State.init ()).after (fun _ _ => true) [.bind (.call (0 : Nat) {}), .step 0, .exec 0, .exec 0]

def yielded : State host := (ready.move (.exec 0)).getD ready

theorem ready_reachable : Reachable (fun _ _ => True) ready :=
  .after (fun _ _ _ => trivial) _ _

end host

theorem yield_yields_host : host.ready.queue = [2] ∧
    YieldsTo host.ready 0 host.ready.nextToken host.yielded := by
  have h := yield_yields host.ready_reachable (State.moved (l := .exec 0) (by decide +kernel))
    (c := 0) (f := .user (1 : Nat)) (p := 0) rfl rfl (by decide +kernel)
  exact ⟨by decide +kernel, h.1 (by decide +kernel)⟩

/-- Processes that keep yielding. -/
def yielder : Program where
  User := Unit
  Body := Unit
  Memory := Unit
  Value := Unit
  Error := Unit
  start := id
  next _ m _ := (m, .await (.timeout true 0 PriorityConsts.inherit none) fun _ => ())

namespace yielder

/-- Process 0, with `n` more processes bound after it, is about to yield. -/
def ready (n : Nat) : State yielder :=
  (State.init ()).after (fun _ _ => true)
    (List.replicate (n + 1) (.bind (.call () {})) ++ [.step 0])

def yielded (n : Nat) : State yielder := ((ready n).move (.exec 0)).getD (ready n)

/-- Of four processes, the third and the fourth have begun and yielded. -/
def passed : State yielder :=
  (yielded 3).after (fun s _ => decide s.Plain) [.step 4, .exec 2, .step 6, .exec 3]

def resumed : State yielder := (passed.move (.step 8)).getD passed

theorem ready_reachable (n : Nat) : Reachable (fun _ _ => True) (ready n) :=
  .after (fun _ _ _ => trivial) _ _

theorem passed_runs : Transition.Runs Step (fun s _ => s.Plain) (yielded 3) passed :=
  State.after_runs (fun _ _ h => of_decide_eq_true h) _ _

end yielder

/-- Of four processes that keep yielding, the second has not begun when the first, which has
yielded to it, is resumed. -/
theorem yield_passes_process :
    ¬ ∀ (P : Program) (s s1 : State P) (c : CoroId) (f : P.Frame) (own p : Int)
      (tkn : Option TokenId) (k : Result P.Value P.Error → P.Frame),
      Reachable (fun _ _ => True) s → s.Plain → s.current = some c → Step s (.exec c) s1 →
      (s.coros c).status = .running f → s.next f = .await (.timeout true 0 own tkn) k →
      resolvePriority own (s.coros c).priority = p → YieldsTo s p s.nextToken s1 := by
  intro h
  have hyields := h yielder (yielder.ready 3) (yielder.yielded 3) 0 (.user ()) _ 0 _ _
    (yielder.ready_reachable 3) (by decide +kernel) (by decide +kernel)
    (State.moved (by decide +kernel)) rfl rfl (by decide +kernel)
  -- token 2 starts the second process, token 8 is that of the yield
  have hex := hyields yielder.passed yielder.resumed yielder.passed_runs (by decide +kernel)
    (State.moved (by decide +kernel)) 2 (by decide +kernel) (by decide +kernel) (by decide +kernel)
  exact absurd hex (by decide +kernel)

end Cxxdes
