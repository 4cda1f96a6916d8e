-- SUMMARY: An any_of with a timed child ends no later than the child, whatever else it waits for.
import Cxxdes.Timing.Duration

/-!
# Limits

`any_of(evt.wait(), env.delay(d))` is how a process waits with a timeout. A limited expression is
a timed one in any number of `any_of`s, with any other awaitables at its sides. It takes no
longer than its limit: the duration of the timed one, plus the latencies of the `any_of`s.
-/

namespace Cxxdes

/-! ### Expressions -/

/-- An expression, or an `any_of` of a limited one and other awaitables. -/
inductive Limited (U : Type) where
  | flow (e : Flow U)
  | anyOf (latency priority : Int) (before : List (Awaitable U)) (x : Limited U)
      (after : List (Awaitable U))

namespace Limited

variable {U : Type}

def awaitable : Limited U → Awaitable U
  | .flow e => e.awaitable
  | .anyOf latency priority before x after =>
    .comp { cond := .anyOf, latency := latency, priority := priority }
      (before ++ x.awaitable :: after)

/-- How long the expression takes at most when it is awaited at time `n`. -/
def limit (n : Int) : Limited U → Int
  | .flow e => e.dur n
  | .anyOf latency _ _ x _ => x.limit n + latency

def Fits (P : Program) : Limited P.User → Prop
  | .flow e => e.Fits P
  | .anyOf latency _ _ x _ => 0 ≤ latency ∧ x.Fits P

/-- The expression that a copy of the awaitable stands for. -/
def copy : Limited U → Limited U
  | .flow e => .flow e
  | .anyOf latency priority before x after =>
    .anyOf latency priority (Awaitable.copyAll before) x.copy (Awaitable.copyAll after)

theorem copyAll_append (as bs : List (Awaitable U)) :
    Awaitable.copyAll (as ++ bs) = Awaitable.copyAll as ++ Awaitable.copyAll bs := by
  induction as with
  | nil => rfl
  | cons a as ih =>
      simp only [List.cons_append, Awaitable.copyAll, ih]

theorem copy_awaitable (x : Limited U) : x.awaitable.copy = x.copy.awaitable := by
  induction x with
  | flow e => exact e.copy_awaitable
  | anyOf latency priority before x after ih =>
      simp only [awaitable, copy, Awaitable.copy, copyAll_append, Awaitable.copyAll, ih]

theorem wrap_awaitable {P : Program} (x : Limited P.User) (s : State P) :
    x.awaitable.wrap s = x.copy.awaitable := by
  cases x with
  | flow e => exact e.wrap_awaitable s
  | anyOf => exact copy_awaitable _

theorem limit_copy (n : Int) (x : Limited U) : x.copy.limit n = x.limit n := by
  induction x with
  | flow e => rfl
  | anyOf latency priority before x after ih => simp only [copy, limit, ih]

theorem Fits.copy {P : Program} {x : Limited P.User} (h : x.Fits P) : x.copy.Fits P := by
  induction x with
  | flow e => exact h
  | anyOf latency priority before x after ih => exact ⟨h.1, ih h.2⟩

end Limited

/-! ### The children at the sides -/

variable {P : Program} {s s' F : State P} {c : CoroId} {n : Int}

theorem awaitBindAll_split {priority : Int} {as bs cs : List (Awaitable P.User)}
    {a : Awaitable P.User} (hok : awaitBindAll priority (as ++ a :: bs) s = (.ok cs, s')) :
    ∃ as' a' bs' s1 s2, cs = as' ++ a' :: bs' ∧ awaitBindAll priority as s = (.ok as', s1) ∧
      awaitBind priority a s1 = (.ok a', s2) ∧ awaitBindAll priority bs s2 = (.ok bs', s') := by
  induction as generalizing s cs with
  | nil =>
      simp only [List.nil_append, awaitBindAll] at hok
      rcases hone : awaitBind priority a s with ⟨_ | a', s2⟩ <;> rw [hone] at hok
      · cases hok
      · simp only at hok
        rcases hrest : awaitBindAll priority bs s2 with ⟨_ | bs', s3⟩ <;> rw [hrest] at hok <;>
          cases hok
        exact ⟨[], a', bs', s, s2, rfl, rfl, hone, hrest⟩
  | cons b as ih =>
      simp only [List.cons_append, awaitBindAll] at hok
      rcases hone : awaitBind priority b s with ⟨_ | b', s1⟩ <;> rw [hone] at hok
      · cases hok
      · simp only at hok
        rcases hrest : awaitBindAll priority (as ++ a :: bs) s1 with ⟨_ | cs', s3⟩ <;>
          rw [hrest] at hok <;> cases hok
        obtain ⟨as', a', bs', s4, s5, rfl, h1, h2, h3⟩ := ih hrest
        refine ⟨b' :: as', a', bs', s4, s5, rfl, ?_, h2, h3⟩
        simp only [awaitBindAll, hone, h1]

theorem awaitReadyAll_split (as bs : List (Awaitable P.User)) (a : Awaitable P.User)
    (s : State P) : ∃ rs rs' as' bs' s1, s1 = (awaitReadyAll as s).2.2 ∧
      awaitReadyAll (as ++ a :: bs) s = (rs ++ (awaitReady a s1).1 :: rs',
        as' ++ (awaitReady a s1).2.1 :: bs', (awaitReadyAll bs (awaitReady a s1).2.2).2.2) := by
  induction as generalizing s with
  | nil => exact ⟨[], _, [], _, s, rfl, rfl⟩
  | cons b as ih =>
      obtain ⟨rs, rs', as', bs', s1, hs1, heq⟩ := ih (awaitReady b s).2.2
      refine ⟨(awaitReady b s).1 :: rs, rs', (awaitReady b s).2.1 :: as', bs', s1, hs1, ?_⟩
      simp only [List.cons_append, awaitReadyAll, heq]

/-- No child was ready. -/
theorem awaitSuspendAll_unready {cd : Option CoroId} {h : HandlerId} {ready : List Bool}
    (hready : ∀ q ∈ ready, q = false) (as : List (Awaitable P.User)) (s : State P) :
    awaitSuspendAll cd h ready as s = awaitSuspendAll cd h [] as s := by
  induction as generalizing ready s with
  | nil => rfl
  | cons a as ih =>
      have hhead : ready.headD false = false := by
        cases ready with
        | nil => rfl
        | cons q qs => exact hready q List.mem_cons_self
      have htail : ∀ q ∈ ready.tail, q = false := fun q hq => hready q (List.mem_of_mem_tail hq)
      simp only [awaitSuspendAll, hhead, List.headD_nil, List.tail_nil, ih htail]
      rfl

theorem SuspendableAll.unready {ready : List Bool} (hready : ∀ q ∈ ready, q = false)
    {as : List (Awaitable P.User)} (h : SuspendableAll s ready as) : SuspendableAll s [] as := by
  induction as generalizing ready with
  | nil => trivial
  | cons a as ih =>
      refine ⟨fun _ => h.1 ?_, ih (fun q hq => hready q (List.mem_of_mem_tail hq)) h.2⟩
      cases ready with
      | nil => rfl
      | cons q qs => exact hready q List.mem_cons_self

theorem SuspendableAll.split {as bs : List (Awaitable P.User)} {a : Awaitable P.User}
    (h : SuspendableAll s [] (as ++ a :: bs)) :
    SuspendableAll s [] as ∧ Suspendable s a ∧ SuspendableAll s [] bs := by
  induction as with
  | nil => exact ⟨trivial, h.1 rfl, h.2⟩
  | cons b as ih =>
      obtain ⟨h1, h2, h3⟩ := ih h.2
      exact ⟨⟨h.1, h1⟩, h2, h3⟩

theorem awaitSuspendAll_split {cd : Option CoroId} {h : HandlerId}
    {as bs cs : List (Awaitable P.User)} {a : Awaitable P.User}
    (hok : awaitSuspendAll cd h [] (as ++ a :: bs) s = (.ok cs, s')) :
    ∃ as' a' bs' s1 s2, awaitSuspendAll cd h [] as s = (.ok as', s1) ∧
      awaitSuspend cd a s1 = (.ok a', s2) ∧
      awaitSuspendAll cd h [] bs (installOn s2 h (awaitToken s2 a')) = (.ok bs', s') := by
  induction as generalizing s cs with
  | nil =>
      simp only [List.nil_append, awaitSuspendAll, List.headD_nil, Bool.false_eq_true, if_false,
        List.tail_nil] at hok
      rcases hone : awaitSuspend cd a s with ⟨_ | a', s2⟩ <;> rw [hone] at hok
      · cases hok
      · simp only at hok
        rcases hrest : awaitSuspendAll cd h [] bs (installOn s2 h (awaitToken s2 a'))
          with ⟨_ | bs', s3⟩ <;> rw [hrest] at hok <;> cases hok
        exact ⟨[], a', bs', s, s2, rfl, hone, hrest⟩
  | cons b as ih =>
      simp only [List.cons_append, awaitSuspendAll, List.headD_nil, Bool.false_eq_true, if_false,
        List.tail_nil] at hok
      rcases hone : awaitSuspend cd b s with ⟨_ | b', s1⟩ <;> rw [hone] at hok
      · cases hok
      · simp only at hok
        rcases hrest : awaitSuspendAll cd h [] (as ++ a :: bs) (installOn s1 h (awaitToken s1 b'))
          with ⟨_ | cs', s3⟩ <;> rw [hrest] at hok <;> cases hok
        obtain ⟨as', a', bs', s4, s5, h1, h2, h3⟩ := ih hrest
        refine ⟨b' :: as', a', bs', s4, s5, ?_, h2, h3⟩
        simp only [awaitSuspendAll, List.headD_nil, Bool.false_eq_true, if_false, List.tail_nil,
          hone, h1]

/-! ### await_bind and await_ready -/

/-- The awaitable is what `await_bind` makes of the expression. -/
def Limited.Bound (s : State P) : Limited P.User → Awaitable P.User → Prop
  | .flow e, a => e.Bound False s a
  | .anyOf latency _ _ x _, a => ∃ d as b cs, a = .comp d (as ++ b :: cs) ∧ d.cond = .anyOf ∧
      d.latency = latency ∧ x.Bound s b

/-- The awaitable has been asked, and it was not ready. -/
def Limited.Asked (s : State P) : Limited P.User → Awaitable P.User → Prop
  | .flow e, a => e.ready s.now = false ∧ e.Bound True s a
  | .anyOf latency _ _ x _, a => ∃ d as b cs, a = .comp d (as ++ b :: cs) ∧ d.cond = .anyOf ∧
      d.latency = latency ∧ (∀ q ∈ d.ready, q = false) ∧ x.Asked s b

theorem Limited.Bound.edits {cd : Option CoroId} {nn : Prop} {k : TokenId} {x : Limited P.User}
    {a : Awaitable P.User} (h : x.Bound s a) (hs : Sound s) (he : Edits cd k nn s s')
    (hk : s.nextToken ≤ k) : x.Bound s' a := by
  induction x generalizing a with
  | flow e => exact Flow.Bound.keep h (Edits.ext he).now fun _ _ hl => hl.edits hs he hk
  | anyOf latency priority before x after ih =>
      obtain ⟨d, as, b, cs, ha, hc, hlat, hb⟩ := h
      exact ⟨d, as, b, cs, ha, hc, hlat, ih hb⟩

theorem Limited.Asked.edits {cd : Option CoroId} {nn : Prop} {k : TokenId} {x : Limited P.User}
    {a : Awaitable P.User} (h : x.Asked s a) (hs : Sound s) (he : Edits cd k nn s s')
    (hk : s.nextToken ≤ k) : x.Asked s' a := by
  induction x generalizing a with
  | flow e =>
      have hnow := (Edits.ext he).now
      exact ⟨by rw [hnow]; exact h.1, Flow.Bound.keep h.2 hnow fun _ _ hl => hl.edits hs he hk⟩
  | anyOf latency priority before x after ih =>
      obtain ⟨d, as, b, cs, ha, hc, hlat, hr, hb⟩ := h
      exact ⟨d, as, b, cs, ha, hc, hlat, hr, ih hb⟩

theorem awaitBind_limited {priority : Int} {x : Limited P.User} (hx : x.Fits P) (hs : Sound s)
    {a : Awaitable P.User} (hok : awaitBind priority x.awaitable s = (.ok a, s')) :
    x.Bound s' a := by
  induction x generalizing priority s s' a with
  | flow e =>
      obtain ⟨a1, s1, hb, -, hbound⟩ := awaitBind_flow priority hx s hs
      obtain ⟨h1, rfl⟩ := Prod.mk.inj (hb.symm.trans hok)
      cases h1
      exact hbound
  | anyOf latency own before x after ih =>
      simp only [Limited.awaitable, awaitBind] at hok
      rcases hall : awaitBindAll (resolvePriority own priority) (before ++ x.awaitable :: after) s
        with ⟨_ | as', s1⟩ <;> rw [hall] at hok <;> cases hok
      obtain ⟨as, b, cs, s2, s3, rfl, h1, h2, h3⟩ := awaitBindAll_split hall
      have he1 : ∀ k, Edits none k False s s2 := fun k => by
        have h : Edits none k False s (awaitBindAll (resolvePriority own priority) before s).2 :=
          awaitBindAll_edits (resolvePriority own priority) before s hs.tidy fun hf => hf.elim
        rwa [h1] at h
      have hs2 := hs.edits (by simp) (he1 0)
      have he2 : Edits none 0 False s2 s3 := by
        have h : Edits none 0 False s2
            (awaitBind (resolvePriority own priority) x.awaitable s2).2 :=
          awaitBind_edits (resolvePriority own priority) x.awaitable s2 hs2.tidy fun hf => hf.elim
        rwa [h2] at h
      have hs3 := hs2.edits (by simp) he2
      have he3 : Edits none s3.nextToken False s3 s' := by
        have h : Edits none s3.nextToken False s3
            (awaitBindAll (resolvePriority own priority) after s3).2 :=
          awaitBindAll_edits (resolvePriority own priority) after s3 hs3.tidy fun hf => hf.elim
        rwa [h3] at h
      exact ⟨_, as, b, cs, rfl, rfl, rfl, (ih hx.2 hs2 h2).edits hs3 he3 (Nat.le_refl _)⟩

theorem awaitReady_limited {x : Limited P.User} {a : Awaitable P.User} (hx : x.Bound s a)
    (hs : Sound s) (hr : (awaitReady a s).1 = false) :
    x.Asked (awaitReady a s).2.2 (awaitReady a s).2.1 := by
  induction x generalizing s a with
  | flow e =>
      obtain ⟨b, heq, hb⟩ := awaitReady_flow hx
      rw [heq] at hr ⊢
      exact ⟨hr, hb⟩
  | anyOf latency priority before x after ih =>
      obtain ⟨d, as, b, cs, rfl, hc, hlat, hb⟩ := hx
      obtain ⟨rs, rs', as', cs', s1, hs1, heq⟩ := awaitReadyAll_split as cs b s
      have hlen : (awaitReadyAll (as ++ b :: cs) s).1.length = (as ++ b :: cs).length :=
        (awaitReadyAll_asked (as ++ b :: cs) s).1
      simp only [awaitReady] at hr ⊢
      -- an `any_of` that is not ready has no child that is
      have hall : ∀ q ∈ (awaitReadyAll (as ++ b :: cs) s).1, q = false := by
        rw [← hlen, hc, Condition.holds_eq_needless] at hr
        intro q hq
        simpa using List.any_eq_false.mp hr q hq
      have he1 : ∀ k, Edits none k False s s1 := fun k => by
        rw [hs1]
        exact awaitReadyAll_edits as s
      have hsound := hs.edits (by simp) (he1 0)
      have hone := ih (hb.edits hs (he1 s.nextToken) (Nat.le_refl _)) hsound
        (hall _ (by rw [heq]; simp))
      have he2 : Edits none 0 False s1 (awaitReady b s1).2.2 := awaitReady_edits b s1
      have he3 : Edits none (awaitReady b s1).2.2.nextToken False (awaitReady b s1).2.2
          (awaitReadyAll cs (awaitReady b s1).2.2).2.2 := awaitReadyAll_edits cs _
      let d' : Comp := { d with
        remaining := (awaitReadyAll (as ++ b :: cs) s).1.count false
        ready := (awaitReadyAll (as ++ b :: cs) s).1 }
      refine ⟨d', as', (awaitReady b s1).2.1, cs', ?_, hc, hlat, hall, ?_⟩
      · change Awaitable.comp d' (awaitReadyAll (as ++ b :: cs) s).2.1 = _
        rw [heq]
      · rw [heq]
        exact hone.edits (hsound.edits (by simp) he2) he3 (Nat.le_refl _)

/-! ### await_suspend -/

/-- Token `t` is executed at time `n` or before: it is expected by then, or pending, or it is
the output of an `any_of` with a child of which that is true. -/
inductive State.Within (s : State P) : TokenId → Int → Prop where
  | expects (t : TokenId) (m n : Int) (h : s.Expects (.fires t) m) (hle : m ≤ n) : s.Within t n
  | pending (t : TokenId) (n : Int) (hq : t ∈ s.queue) (hnow : s.now ≤ n)
      (hle : (s.tokens t).time ≤ n) : s.Within t n
  | output (h : HandlerId) (t u : TokenId) (ts : List TokenId) (m n : Int)
      (hout : (s.handlers h).completionTkn = some t) (hcond : (s.handlers h).cond = .anyOf)
      (hlat : 0 ≤ (s.tokens t).time) (hts : s.Outstanding h ts) (hu : u ∈ ts)
      (hin : s.Within u m) (hle : m + (s.tokens t).time ≤ n) : s.Within t n

theorem awaitSuspend_limited {cd : Option CoroId} {sm : State P} (hF : sm.Final cd F)
    {x : Limited P.User} {a a' : Awaitable P.User} (he : Edits cd sm.nextToken False sm s)
    (hfit : x.Fits P) (hx : x.Asked sm a) (hsus : Suspendable sm a)
    (hok : awaitSuspend cd a s = (.ok a', s')) (hl : s'.Leaves s.nextToken F) :
    F.Within s.nextToken (sm.now + x.limit sm.now) := by
  induction x generalizing s s' a a' with
  | flow e =>
      exact .expects _ _ _ (awaitSuspend_flow hF s s' he hfit hx.2 hsus hx.1 hok hl) (Int.le_refl _)
  | anyOf latency priority before x after ih =>
      obtain ⟨d, as, b, cs, rfl, hcond, rfl, hready, hb⟩ := hx
      simp only [awaitSuspend] at hok
      rcases hall : awaitSuspendAll cd s.nextHandler d.ready (as ++ b :: cs)
        (s.newHandler d (as ++ b :: cs).length cd) with ⟨_ | as', s1⟩ <;> rw [hall] at hok <;>
        cases hok
      rw [awaitSuspendAll_unready hready] at hall
      obtain ⟨hsus1, hsus2, hsus3⟩ := (SuspendableAll.unready hready hsus).split
      have hnew : Edit cd sm.nextToken False s (s.newHandler d (as ++ b :: cs).length cd) :=
        .newHandler d _ fun hf => hf.elim
      have he0 := he.tail hnew
      have hs0 := hF.sound.edits hF.coroData he0
      have hhd : (s.newHandler d (as ++ b :: cs).length cd).handlers s.nextHandler =
          ⟨d.cond, (as ++ b :: cs).length, d.remaining, some s.nextToken⟩ := by
        simp [State.newHandler]
      have hcd : ((s.newHandler d (as ++ b :: cs).length cd).tokens s.nextToken).coroData = cd := by
        simp [State.newHandler, State.newToken]
      obtain ⟨bs, b', cs', s1, s2, h1, h2, h3⟩ := awaitSuspendAll_split hall
      -- the children before
      have hspec1 := (awaitSuspendAll_spec cd s.nextHandler s.nextToken as []
        (s.newHandler d (as ++ b :: cs).length cd) hs0.tidy ((Edits.ext he0).suspendableAll hsus1)
        (fun hf => hf.elim) (Nat.lt_succ_self _) (by rw [hhd]) (Nat.lt_succ_self _) hcd).1
      rw [h1] at hspec1
      have he1 := he0.trans (hspec1.mono (Edits.ext he0).nextToken)
      have hs1 := hF.sound.edits hF.coroData he1
      have hx1 := Edits.ext hspec1
      have hlt1 : s.nextToken < s1.nextToken := hx1.nextToken
      have hh1 : s.nextHandler < s1.nextHandler := hx1.nextHandler
      have hhd1 : s1.handlers s.nextHandler =
          ⟨d.cond, (as ++ b :: cs).length, d.remaining, some s.nextToken⟩ := by
        rw [hx1.handler _ (Nat.lt_succ_self _), hhd]
      have hcd1 : (s1.tokens s.nextToken).coroData = cd := by
        rw [(hx1.tokenFields _ (Nat.lt_succ_self _) (Nat.lt_succ_self _)).2.1, hcd]
      -- the limited child
      obtain ⟨hspec2, hone⟩ := awaitSuspend_spec cd b s1 hs1.tidy
        ((Edits.ext he1).suspendable hsus2) fun hf => hf.elim
      rw [h2] at hspec2
      obtain ⟨htkn, hlt2, hcr⟩ := hone b' s2 h2
      have hx2 := Edits.ext hspec2
      have hinst : Edit cd s1.nextToken False s2 (s2.install s1.nextToken s.nextHandler) := by
        refine .install _ _ (Nat.le_refl _) hlt2 (Nat.lt_of_lt_of_le hh1 hx2.nextHandler)
          (hcr.free_handler (Nat.le_refl _) hlt2) (hcr.eptr _ (Nat.le_refl _) hlt2) ?_
        intro out hout
        rw [hx2.handler _ hh1, hhd1] at hout
        cases hout
        rw [(hx2.tokenFields _ hlt1 hlt1).2.1, hcd1, hcr.coroData _ (Nat.le_refl _) hlt2]
      rw [htkn] at h3
      have he2 := he1.trans (Edits.mono (Edits.ext he1).nextToken (hspec2.tail hinst))
      have hx2' := Edits.ext (hspec2.tail hinst)
      -- the children after
      have hspec3 := (awaitSuspendAll_spec cd s.nextHandler s.nextToken cs []
        (s2.install s1.nextToken s.nextHandler) (hF.sound.edits hF.coroData he2).tidy
        ((Edits.ext he2).suspendableAll hsus3) (fun hf => hf.elim)
        (Nat.lt_of_lt_of_le hh1 hx2'.nextHandler) (by rw [hx2'.handler _ hh1, hhd1])
        (Nat.lt_of_lt_of_le hlt1 hx2'.nextToken)
        (by rw [(hx2'.tokenFields _ hlt1 hlt1).2.1, hcd1])).1
      rw [show installOn s2 s.nextHandler (some s1.nextToken) =
        s2.install s1.nextToken s.nextHandler from rfl] at h3
      rw [h3] at hspec3
      have hl3 : (s2.install s1.nextToken s.nextHandler).Leaves s.nextToken F :=
        hl.ext (Edits.ext hspec3) (Nat.le_refl _)
      have hin : F.Within s1.nextToken (sm.now + x.limit sm.now) :=
        ih he1 hfit.2 hb hsus2 h2 (hl3.install hlt1)
      -- the handler and the output token are as `newHandler` left them
      have hspec := (awaitSuspendAll_spec cd s.nextHandler s.nextToken (as ++ b :: cs) []
        (s.newHandler d (as ++ b :: cs).length cd) hs0.tidy
        ((Edits.ext he0).suspendableAll (SuspendableAll.unready hready hsus)) (fun hf => hf.elim)
        (Nat.lt_succ_self _) (by rw [hhd]) (Nat.lt_succ_self _) hcd).1
      rw [hall] at hspec
      have hx := Edits.ext hspec
      have hs' := hF.sound.edits hF.coroData (he0.trans (hspec.mono (Edits.ext he0).nextToken))
      have hlt : s.nextHandler < s'.nextHandler := hx.nextHandler
      have hhd' : s'.handlers s.nextHandler =
          ⟨d.cond, (as ++ b :: cs).length, d.remaining, some s.nextToken⟩ := by
        rw [hx.handler _ (Nat.lt_succ_self _), hhd]
      have hhdF := (hl.handlers _ hlt).trans hhd'
      have htime : (F.tokens s.nextToken).time = d.latency := by
        rw [hl.time _ (Nat.le_refl _) hx.nextToken
            (hs'.not_event (.inr (.inr ⟨s.nextHandler, by rw [hhd']⟩))),
          hx.token _ (Nat.lt_succ_self _) (Nat.lt_succ_self _)
            (hs0.not_event (.inr (.inr ⟨s.nextHandler, by rw [hhd]⟩)))]
        simp [State.newHandler, State.newToken]
      -- the token of the limited child has yet to report
      obtain ⟨ts, hts⟩ := hF.outstanding s.nextHandler (Edits.ext he).nextHandler
        (Nat.lt_of_lt_of_le hlt hl.nextHandler)
      have hu : s1.nextToken ∈ ts := by
        refine (hts.mem _).mpr ⟨Nat.lt_of_lt_of_le hlt2 hl3.nextToken, ?_, fun hex => ?_⟩
        · rw [hl3.handler s1.nextToken hlt1 hlt2, State.install_handler]
        · exact Nat.not_lt.mpr (Edits.ext he1).nextToken (hF.executed _ hex)
      refine .output s.nextHandler s.nextToken s1.nextToken ts _ _ (by rw [hhdF])
        (by rw [hhdF]; exact hcond) (by rw [htime]; exact hfit.1) hts hu hin ?_
      rw [htime, Limited.limit]
      omega

/-! ### Transitions -/

section
variable {t : TokenId} {l : Label P}

namespace State.Within

theorem now_le (h : s.Within t n) : s.now ≤ n := by
  induction h with
  | expects t m n h hle => exact Int.le_trans h.now_le hle
  | pending t n hq hnow hle => exact hnow
  | output i t u ts m n hout hcond hlat hts hu hin hle ih => omega

theorem live (h : s.Within t n) : s.Live t := by
  cases h with
  | expects _ m _ h hle => exact h.live
  | pending _ _ hq => exact .inl hq
  | output i _ u ts m _ hout => exact .inr (.inr (.inr ⟨i, hout⟩))

theorem time_le (h : s.Within t n) (hs : Sound s) (ht : t ∈ s.queue) : (s.tokens t).time ≤ n := by
  cases h with
  | expects _ m _ h hle => exact Int.le_trans (Int.le_of_eq (h.time hs ht).symm) hle
  | pending _ _ hq hnow hle => exact hle
  | output i _ u ts m _ hout =>
      obtain ⟨gone, own, ho⟩ := hs.owned
      have hown := ho.queue t ht
      rw [ho.output i t hout] at hown
      cases hown

theorem exists_due (h : s.Within t n) (hidle : ∀ c f, (s.coros c).status ≠ .running f) :
    ∃ u ∈ s.queue, (s.tokens u).time ≤ n := by
  induction h with
  | expects t m n h hle =>
      obtain ⟨u, hu, htime⟩ := h.exists_due hidle
      exact ⟨u, hu, Int.le_trans htime hle⟩
  | pending t n hq hnow hle => exact ⟨t, hq, hle⟩
  | output i t u ts m n hout hcond hlat hts hu hin hle ih =>
      obtain ⟨v, hv, htime⟩ := ih
      exact ⟨v, hv, by omega⟩

end State.Within

/-- A limit stays a limit until the token is executed. -/
theorem Step.Plainly.within (h : Step.Plainly s l s') (hw : s.Within t n) :
    l ≠ .step t → s'.Within t n := by
  induction hw with
  | expects t m n hexp hle => exact fun hl => .expects t m n (h.upholds hexp hl) hle
  | pending t n hq hnow hle =>
      intro hl
      obtain ⟨hq', htok⟩ := h.step.pending h.single.sound h.free.ne_reset hq hl
      have hclock := (h.step.clock_le h.single.sound (h.unraised.plain h.ordered) h.free.ne_reset
        hq).2
      exact .pending t n hq' (by omega) (by rw [htok]; exact hle)
  | output i t u ts m n hout hcond hlat hts hu hin hle ih =>
      intro _
      obtain ⟨gone, own, ho⟩ := h.single.sound.owned
      have hi : i < s.nextHandler := Nat.lt_of_not_le fun hle => by
        rw [ho.freshHandler i hle] at hout
        cases hout
      cases h.step.handler h.single.sound hi with
      | keeps hno heq =>
          have htok := h.output_same hout fun w hl hh => absurd hh (hno w hl)
          exact .output i t u ts m n (by rw [heq]; exact hout) (by rw [heq]; exact hcond)
            (by rw [htok]; exact hlat) (h.outstanding_keeps hi hts hno heq) hu
            (ih fun hl => hno u hl ((hts.mem u).mp hu).2.1) (by rw [htok]; exact hle)
      | counts w hl hh hno heq =>
          -- an `any_of` fires with its first child
          subst hl
          obtain ⟨hall, -⟩ := h.outstanding_counts hi hts (h.outstanding_popped hts hh)
            (h.not_fires hout hno) heq
          rw [hcond] at hall
          cases hall
      | fires w out hl hh he hout' hf hsch heq =>
          subst hl
          obtain ⟨hq, -, hnow⟩ := h.step.popped h.single.sound
          have hnow' : s'.now ≤ m := by
            by_cases hwu : w = u
            · subst hwu
              have htime := hin.time_le h.single.sound hq
              have hge := hin.now_le
              omega
            · exact (ih fun hl => hwu (Label.step.inj hl)).now_le
          obtain ⟨hsched, htok⟩ := h.scheduled_output hout hh hf
          exact .pending t n hsched (by omega) (by omega)

theorem Step.Plainly.now_le (h : Step.Plainly s l s') : s.now ≤ s'.now := by
  obtain ⟨gone, own, ho⟩ := h.single.sound.owned
  rw [(h.step.kept h.single.sound.tidy h.free.ne_reset ho).now]
  cases l with
  | step t => exact Int.le_max_right _ _
  | advance deadline => exact Int.le_max_left _ _
  | call | bind | elsewhere | exec | reset => exact Int.le_refl _

/-! ### Waiting -/

/-- Process `c` waits for token `t` since time `m`, and until time `n` at most. -/
structure State.WaitsWithin (s : State P) (c : CoroId) (a : Awaitable P.User)
    (k : Result P.Value P.Error → P.Frame) (t : TokenId) (m n : Int) : Prop where
  status : (s.coros c).status = .suspended a k
  handler : (s.tokens t).handler = none
  coroData : (s.tokens t).coroData = some c
  within : s.Within t n
  since : m ≤ s.now
  silent : s.resumedBy t = []

variable {a : Awaitable P.User} {k : Result P.Value P.Error → P.Frame} {m : Int}

theorem State.WaitsWithin.resumed (hw : s.WaitsWithin c a k t m n)
    (h : Step.Plainly s (.step t) s') : ∃ i, m ≤ i ∧ i ≤ n ∧ s'.resumedBy t = [(c, i)] := by
  obtain ⟨hq, -, hnow⟩ := h.step.popped h.single.sound
  have htime := hw.within.time_le h.single.sound hq
  have hle := hw.within.now_le
  have hge := hw.since
  exact ⟨s'.now, by omega, by omega, h.resumedBy hw.status hw.handler hw.coroData hw.silent⟩

theorem State.WaitsWithin.step (hw : s.WaitsWithin c a k t m n) (h : Step.Plainly s l s')
    (hl : l ≠ .step t) : s'.WaitsWithin c a k t m n := by
  obtain ⟨gone, own, ho⟩ := h.single.sound.owned
  have hlive := hw.within.live
  have hlt : t < s.nextToken := ho.live_lt hlive
  have hc : c < s.nextCoro := h.single.sound.tidy.fresh.lt_of_status (by simp [hw.status])
  have hans := h.single.sources c t (by simp) ⟨hlive, hw.handler, hw.coroData⟩
  have hsame := h.status_same hans hl (h.not_exec (by simp [hw.status])) hc
  have hlt' : t < (s.popped l).nextToken := by cases l <;> exact hlt
  have hfields := (h.step.moves h.single.sound).fields t hlt'
  have hpop : (s.popped l).tokens t = s.tokens t := by cases l <;> rfl
  rw [hpop] at hfields
  exact ⟨hsame.trans hw.status, hfields.1.trans hw.handler, hfields.2.trans hw.coroData,
    h.within hw.within hl, Int.le_trans hw.since h.now_le, (h.records.1 t hl).trans hw.silent⟩

/-- The process waits, or its token has resumed it in time. -/
def State.WaitedWithin (s : State P) (c : CoroId) (a : Awaitable P.User)
    (k : Result P.Value P.Error → P.Frame) (t : TokenId) (m n : Int) : Prop :=
  s.WaitsWithin c a k t m n ∨
    (t ∈ s.executed ∧ ∃ i, m ≤ i ∧ i ≤ n ∧ s.resumedBy t = [(c, i)])

theorem State.WaitedWithin.runs (hw : s.WaitedWithin c a k t m n) (h : Untroubled s)
    (hr : Transition.Runs Step ExceptionFree s s') :
    Untroubled s' ∧ s'.WaitedWithin c a k t m n := by
  refine hr.invariant (I := fun s => Untroubled s ∧ s.WaitedWithin c a k t m n) ?_ ⟨h, hw⟩
  rintro s l s' ⟨h, hw⟩ hl hstep
  have hp := h.plainly hl hstep
  refine ⟨h.step hl hstep, ?_⟩
  rcases hw with hw | ⟨hex, i, hm, hn, hby⟩
  · by_cases hstept : l = .step t
    · subst hstept
      exact .inr ⟨hp.executed.mpr (.inr rfl), hw.resumed hp⟩
    · exact .inl (hw.step hp hstept)
  · have hne : l ≠ .step t := by
      rintro rfl
      obtain ⟨gone, own, ho⟩ := h.single.sound.owned
      exact ho.executed_notLive (ho.executed t hex) (.inl (hstep.popped h.single.sound).1)
    exact .inr ⟨hp.executed.mpr (.inl hex), i, hm, hn, (hp.records.1 t hne).trans hby⟩

/-! ### co_await -/

/-- `co_await` of a limited expression in the body of `c`: either `c` runs on, or `c` is suspended
and its token is executed within the limit. -/
theorem coAwait_limited {x : Limited P.User} {f : P.Frame} (hs : Sound s)
    (hst : (s.coros c).status = .running f) (hcur : s.current = some c) (hfit : x.Fits P)
    (k : Result P.Value P.Error → P.Frame) (hthrow : s.suspendThrows c x.awaitable = false) :
    (∃ r, ((s.coAwait c x.awaitable k).coros c).status = .running (k r)) ∨
    ∃ a t, ((s.coAwait c x.awaitable k).coros c).status = .suspended a k ∧ a.token = some t ∧
      ((s.coAwait c x.awaitable k).tokens t).handler = none ∧
      ((s.coAwait c x.awaitable k).tokens t).coroData = some c ∧
      (s.coAwait c x.awaitable k).Within t (s.now + x.limit s.now) := by
  have hruns : ∀ (s1 : State P) (target : Option CoroId) (r : Result P.Value P.Error),
      ((s1.deliver c target k r).coros c).status = .running (k r) := fun s1 target r => by
    simp [State.deliver, State.log, State.setStatus, State.setCoro]
  have hthrow' := hthrow
  unfold State.suspendThrows at hthrow'
  unfold State.coAwait
  rw [x.wrap_awaitable] at hthrow' ⊢
  rcases hb : awaitBind (s.coros c).priority x.copy.awaitable s with ⟨e | a1, s1⟩
  · exact .inl ⟨.error e, by simp only [hb, hruns]⟩
  have he : ∀ m, Edits none m False s s1 := fun m => by
    have h : Edits none m False s (awaitBind (s.coros c).priority x.copy.awaitable s).2 :=
      awaitBind_edits (s.coros c).priority x.copy.awaitable s hs.tidy fun hf => hf.elim
    rwa [hb] at h
  have hs1 := hs.edits (by simp) (he 0)
  have hbound := awaitBind_limited hfit.copy hs hb
  have hbnd : Bound s1 a1 := (awaitBind_bound hs.tidy (fun hf => hf.elim) hb).1
  have href : a1.isRef = false := by
    refine awaitBind_isRef ?_ hb
    rw [← x.wrap_awaitable s]
    exact wrap_isRef s x.awaitable
  have hready := awaitReady_limited hbound hs1
  have hsus := awaitReady_suspendable hbnd
  have hask := awaitReady_asked a1 s1
  have href2 := awaitReady_isRef s1 href
  have he2 : ∀ m, Edits none m False s1 (awaitReady a1 s1).2.2 := fun m => awaitReady_edits a1 s1
  simp only [hb] at hthrow' ⊢
  rcases hr : awaitReady a1 s1 with ⟨_ | _, a2, s2⟩ <;>
    rw [hr] at hready hsus hask href2 he2 hthrow'
  · have he12 : ∀ m, Edits none m False s s2 := fun m => (he m).trans (he2 m)
    have hx := Edits.ext (he12 0)
    have hs2 := hs.edits (by simp) (he12 0)
    have hst2 : (s2.coros c).status = .running f :=
      (hx.coro c (hs.tidy.fresh.lt_of_status (by simp [hst]))).status.trans hst
    have hcur2 : s2.current = some c := hx.current.trans hcur
    simp only [hcur2] at hthrow' ⊢
    rcases hok : awaitSuspend (some c) a2 s2 with ⟨_ | a3, s3⟩ <;> rw [hok] at hthrow'
    · cases hthrow'
    · obtain ⟨htkn, hlt, hcr⟩ := (awaitSuspend_spec (some c) a2 s2 hs2.tidy (hsus rfl)
        fun hf => hf.elim).2 a3 s3 hok
      have hF := State.Final.suspend (k := k) hs2 hst2 (hsus rfl) hask hok
      have hin := awaitSuspend_limited hF .refl hfit.copy (hready rfl) (hsus rfl) hok
        (.suspend s3 c a3 k s2.nextToken)
      rw [hx.now, Limited.limit_copy] at hin
      have href3 : a3.isRef = false := awaitSuspend_isRef href2 hok
      refine .inr ⟨a3, s2.nextToken, ?_, (awaitToken_eq s3 href3).symm.trans htkn, ?_, ?_, hin⟩
      · rw [suspend_coros, Function.update_self]
      · rw [(Quiet.suspend s3 c a3 k).tokens]
        exact hcr.free_handler (Nat.le_refl _) hlt
      · rw [(Quiet.suspend s3 c a3 k).tokens]
        exact hcr.coroData _ (Nat.le_refl _) hlt
  · exact .inl ⟨_, hruns _ _ _⟩

/-- A `co_await` of a limited expression takes no longer than its limit: the process runs on at
once, or its token is executed by then, in every run, whatever the other children of the `any_of`s
wait for. -/
theorem await_within_limit {x : Limited P.User} {f : P.Frame} (h : Reachable ExceptionFree s)
    (hfit : x.Fits P) (hst : (s.coros c).status = .running f)
    (hact : s.next f = .await x.awaitable k) (hl : ExceptionFree s (.exec c))
    (hstep : Step s (.exec c) s') :
    (s'.now = s.now ∧ ∃ r, (s'.coros c).status = .running (k r)) ∨
    ∃ a t, (s'.coros c).status = .suspended a k ∧ a.token = some t ∧
      ∀ s2, Transition.Runs Step ExceptionFree s' s2 →
        ((s2.coros c).status = .suspended a k ∧ s2.resumedBy t = [] ∧
            s2.DueBy (s.now + x.limit s.now)) ∨
          ∃ i, s.now ≤ i ∧ i ≤ s.now + x.limit s.now ∧ s2.resumedBy t = [(c, i)] := by
  have hu := h.untroubled
  have hu1 := hu.step hl hstep
  obtain ⟨gone, own, ho⟩ := hu.single.sound.owned
  have hnow : s'.now = s.now := (hstep.kept hu.single.sound.tidy (by simp) ho).now
  have hs0 : Sound (s.ran f) := hu.single.sound.quiet (.of_coros rfl) rfl rfl rfl
    hu.single.sound.started.current
  cases hstep with
  | exec _ _ hex =>
      obtain rfl : (s.ran f).coAwait c x.awaitable k = s' :=
        Except.ok.inj
          ((State.exec_await hst hact (State.valid_of_exec hst hact hex)).symm.trans hex)
      rcases coAwait_limited (s := s.ran f) hs0 hst (hu.single.running c f hst) hfit k
        (hl.sequential f x.awaitable k hst hact) with hrun | ⟨a, t, hst1, htkn, hh, hcd, hin⟩
      · exact .inl ⟨hnow, hrun⟩
      · refine .inr ⟨a, t, hst1, htkn, fun s2 hr => ?_⟩
        -- the token is still to be executed, so it has resumed nobody
        have hsilent : ((s.ran f).coAwait c x.awaitable k).resumedBy t = [] := by
          obtain ⟨gone1, own1, ho1⟩ := hu1.single.sound.owned
          exact Classical.byContradiction fun hne =>
            ho1.executed_notLive (ho1.executed t (hu1.recorded.resumed t hne)) hin.live
        obtain ⟨hu2, hw2⟩ := State.WaitedWithin.runs
          (.inl ⟨hst1, hh, hcd, hin, Int.le_of_eq hnow.symm, hsilent⟩) hu1 hr
        rcases hw2 with hw2 | ⟨-, hby⟩
        · refine .inl ⟨hw2.status, hw2.silent, hw2.within.now_le, fun hcur => ?_⟩
          refine hw2.within.exists_due fun d g hst => ?_
          have hd := hu2.single.running d g hst
          rw [hcur] at hd
          cases hd
        · exact .inr hby

end

/-- Process 0 waits for an event that nobody wakes, for 3 ticks at most. -/
def watch : Limited Unit :=
  .anyOf 1 PriorityConsts.inherit [.wait 0 0 PriorityConsts.inherit none]
    (.flow (.delay 3 PriorityConsts.inherit)) []

def watcher : Program where
  User := Unit
  Body := Bool
  Memory := Unit
  Value := Unit
  Error := Unit
  start _ := false
  next b m _ := (m, if b then .coReturn none else .await watch.awaitable fun _ => true)

namespace watcher

def bound : State watcher := (State.init ()).bind (.call () {})

def started : State watcher :=
  ({ bound.pop 0 with current := some 0 }.setStatus 0 (.running (.user false))).log (.started 0 0)

def waiting : State watcher := started.coAwait 0 watch.awaitable fun _ => .user true

theorem started_reachable : Reachable ExceptionFree started := by
  have hbind : ExceptionFree (State.init () : State watcher) (.bind (.call () {})) :=
    .of_ne_exec (by simp) trivial (by simp)
  have hbound : Reachable ExceptionFree bound :=
    (Reachable.init ()).next hbind (.bind _ _ rfl (by decide))
  have hstep : ExceptionFree bound (.step 0) := .of_ne_exec (by simp) rfl (by simp)
  exact hbound.next hstep (.step _ 0 _ (State.isTop_singleton rfl) rfl (by decide))

end watcher

theorem await_within_limit_watcher : ∃ a t,
    (watcher.waiting.coros 0).status = .suspended a (fun _ => .user true) ∧ a.token = some t ∧
      ∀ s2, Transition.Runs Step ExceptionFree watcher.waiting s2 →
        ((s2.coros 0).status = .suspended a (fun _ => .user true) ∧ s2.resumedBy t = [] ∧
            s2.DueBy 4) ∨
          ∃ i, 0 ≤ i ∧ i ≤ 4 ∧ s2.resumedBy t = [(0, i)] := by
  have hfit : watch.Fits watcher := ⟨by decide, show (0 : Int) ≤ 3 by decide⟩
  have hstep : Step watcher.started (.exec 0) watcher.waiting := .exec _ _ _ rfl (by decide)
  have h := await_within_limit (c := 0) (x := watch) (f := .user false) (k := fun _ => .user true)
    watcher.started_reachable hfit rfl rfl (.of_await rfl rfl rfl) hstep
  refine h.resolve_left fun h0 => ?_
  obtain ⟨-, r, hr⟩ := h0
  cases hr

end Cxxdes
