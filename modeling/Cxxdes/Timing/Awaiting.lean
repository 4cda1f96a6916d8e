-- SUMMARY: What co_await of an expression expects: the phases await_bind, await_ready and await_suspend on a tree.
import Cxxdes.Timing.Expects

/-!
# Awaiting an expression

`await_bind` binds the processes of the tree, whose start tokens are pending from then on.
`await_ready` answers what `Flow.ready` says, and `await_suspend` creates the tokens and handlers
through which the expression is expected at the end of its duration.
-/

namespace Cxxdes

variable {P : Program} {s s' F : State P} {c : CoroId} {n : Int}

/-! ### await_bind -/

/-- The shared process `c` has been bound, and its body is going to end at time `n`. -/
structure State.Launched (s : State P) (c : CoroId) (n : Int) : Prop where
  here : s.BoundHere c
  shared : (s.coros c).unique = false
  expects : ∃ f t es, (s.coros c).status = .initial f ∧ t ∈ s.queue ∧
    (s.tokens t).handler = none ∧ (s.tokens t).coroData = some c ∧ s.now ≤ (s.tokens t).time ∧
    Performs f es ∧ Flow.FitAll P es ∧
    n = (s.tokens t).time + Flow.durSeq (s.tokens t).time es

theorem State.Launched.keep (h : s.Launched c n) (hnow : s'.now = s.now)
    (hq : ∀ t ∈ s.queue, t ∈ s'.queue ∧ s'.tokens t = s.tokens t) (hn : s.nextCoro ≤ s'.nextCoro)
    (hco : CoroExt (s.coros c) (s'.coros c)) : s'.Launched c n := by
  obtain ⟨f, t, es, hst, hqt, hh, hcd, hle, hp, hfit, heq⟩ := h.expects
  obtain ⟨hqt', htok⟩ := hq t hqt
  have henv := (hco.bound (by rw [h.here.2]; simp)).1.trans h.here.2
  refine ⟨⟨Nat.lt_of_lt_of_le h.here.1 hn, henv⟩, hco.unique.trans h.shared,
    f, t, es, hco.status.trans hst, hqt', ?_⟩
  rw [htok, hnow]
  exact ⟨hh, hcd, hle, hp, hfit, heq⟩

theorem State.Launched.edits {cd : Option CoroId} {k : TokenId} {nn : Prop} (h : s.Launched c n)
    (hs : Sound s) (he : Edits cd k nn s s') (hk : s.nextToken ≤ k) : s'.Launched c n := by
  obtain ⟨gone, own, ho⟩ := hs.owned
  have hkept := ho.kept_edits he hk
  exact h.keep hkept.now (fun t ht => ⟨hkept.queue t ht, hkept.token t ht⟩)
    (Edits.ext he).nextCoro ((Edits.ext he).coro c h.here.1)

mutual
/-- The awaitable is what `await_bind` makes of the expression, and if it has been asked
(`await_ready`), then its compositions know the answers. -/
def Flow.Bound (asked : Prop) (s : State P) : Flow P.User → Awaitable P.User → Prop
  | .delay time _, a => ∃ priority, a = .timeout true time priority none
  | .until time _, a => ∃ priority, a = .timeout false time priority none
  | .process _ o body, a => ∃ p, a = .coroutine p none ∧ p.retLatency = o.retLatency ∧
      s.Launched p.coro (s.now + o.latency + durSeq (s.now + o.latency) body)
  | .sequential es o, a => ∃ p, a = .coroutine p none ∧ p.retLatency = o.retLatency ∧
      s.Launched p.coro (s.now + o.latency + durSeq (s.now + o.latency) es)
  | .comp cond latency _ es, a => ∃ d as, a = .comp d as ∧ d.cond = cond ∧ d.latency = latency ∧
      (asked → d.ready = readies s.now es ∧ d.remaining = (readies s.now es).count false) ∧
      BoundAll asked s es as

def Flow.BoundAll (asked : Prop) (s : State P) : List (Flow P.User) → List (Awaitable P.User) → Prop
  | [], as => as = []
  | e :: es, as => ∃ b bs, as = b :: bs ∧ e.Bound asked s b ∧ BoundAll asked s es bs
end

mutual
/-- Other processes are bound, and other tokens created. -/
theorem Flow.Bound.keep {asked : Prop} {e : Flow P.User} {a : Awaitable P.User}
    (h : e.Bound asked s a) (hnow : s'.now = s.now)
    (hl : ∀ c n, s.Launched c n → s'.Launched c n) : e.Bound asked s' a := by
  cases e with
  | delay | «until» => exact h
  | process f o body =>
      obtain ⟨p, ha, hlat, hp⟩ := h
      refine ⟨p, ha, hlat, ?_⟩
      rw [hnow]
      exact hl _ _ hp
  | sequential es o =>
      obtain ⟨p, ha, hlat, hp⟩ := h
      refine ⟨p, ha, hlat, ?_⟩
      rw [hnow]
      exact hl _ _ hp
  | comp cond latency priority es =>
      obtain ⟨d, as, ha, hc, hlat, hask, has⟩ := h
      refine ⟨d, as, ha, hc, hlat, ?_, Flow.BoundAll.keep has hnow hl⟩
      rw [hnow]
      exact hask

theorem Flow.BoundAll.keep {asked : Prop} {es : List (Flow P.User)} {as : List (Awaitable P.User)}
    (h : BoundAll asked s es as) (hnow : s'.now = s.now)
    (hl : ∀ c n, s.Launched c n → s'.Launched c n) : BoundAll asked s' es as := by
  cases es with
  | nil => exact h
  | cons e es =>
      obtain ⟨b, bs, has, hb, hbs⟩ := h
      exact ⟨b, bs, has, Flow.Bound.keep hb hnow hl, Flow.BoundAll.keep hbs hnow hl⟩
end

/-- A coroutine that is called and bound. -/
theorem launched_call (s : State P) (f : P.Frame) (o : Options) (priority : Int)
    {es : List (Flow P.User)} (hu : o.unique = false) (hlat : 0 ≤ o.latency)
    (hp : Performs f es) (hfit : Flow.FitAll P es) :
    ((s.newCoro f o).startCoro s.nextCoro priority).Launched s.nextCoro
      (s.now + o.latency + Flow.durSeq (s.now + o.latency) es) := by
  have hco : ((s.newCoro f o).startCoro s.nextCoro priority).coros s.nextCoro =
      (CoroData.called f o).started s.current
        (resolvePriority o.priority priority) s.nextToken := by
    simp [State.startCoro, State.log, State.scheduleToken, State.newToken, State.setCoro,
      State.newCoro, CoroData.called]
  have htok : ((s.newCoro f o).startCoro s.nextCoro priority).tokens s.nextToken =
      ⟨s.now + o.latency, resolvePriority o.priority priority, some s.nextCoro, none, none⟩ := by
    simp [State.startCoro, State.log, State.scheduleToken, State.newToken, State.setCoro,
      State.newCoro, CoroData.called]
  refine ⟨⟨Nat.lt_succ_self _, by rw [hco]; rfl⟩, by rw [hco]; exact hu, f, s.nextToken, es,
    by rw [hco]; rfl, ?_, ?_⟩
  · exact List.mem_append_right _ (List.mem_singleton_self _)
  · rw [htok]
    have hle : s.now ≤ s.now + o.latency := by omega
    exact ⟨rfl, rfl, hle, hp, hfit, rfl⟩

mutual
theorem awaitBind_flow {e : Flow P.User} (priority : Int) (he : e.Fits P) (s : State P)
    (hs : Sound s) :
    ∃ a s', awaitBind priority e.awaitable s = (.ok a, s') ∧ s'.now = s.now ∧
      e.Bound False s' a := by
  cases e with
  | delay time own => exact ⟨_, s, rfl, rfl, _, rfl⟩
  | «until» time own => exact ⟨_, s, rfl, rfl, _, rfl⟩
  | process f o body =>
      obtain ⟨hu, hlat, hret, hp, hfit⟩ := he
      exact ⟨_, _, rfl, rfl, _, rfl, rfl, launched_call s _ o priority hu hlat hp hfit⟩
  | sequential es o =>
      obtain ⟨hu, hlat, hret, hfit⟩ := he
      exact ⟨_, _, rfl, rfl, _, rfl, rfl,
        launched_call s _ o priority hu hlat (performs_seq es) hfit⟩
  | comp cond latency own es =>
      obtain ⟨as, s', hb, hnow, has⟩ := awaitBindAll_flow (resolvePriority own priority) he.2.2 s hs
      let d : Comp :=
        { cond := cond, latency := latency, priority := resolvePriority own priority }
      refine ⟨.comp d as, s', ?_, hnow, d, as, rfl, rfl, rfl, fun hf => hf.elim, has⟩
      simp only [Flow.awaitable, awaitBind, hb]
      rfl

theorem awaitBindAll_flow {es : List (Flow P.User)} (priority : Int) (he : Flow.FitAll P es)
    (s : State P) (hs : Sound s) :
    ∃ as s', awaitBindAll priority (Flow.awaitables es) s = (.ok as, s') ∧ s'.now = s.now ∧
      Flow.BoundAll False s' es as := by
  cases es with
  | nil => exact ⟨[], s, rfl, rfl, rfl⟩
  | cons e es =>
      obtain ⟨a, s1, hb, hnow, ha⟩ := awaitBind_flow priority he.1 s hs
      have hedits : ∀ k, Edits none k False s s1 := fun k => by
        have h : Edits none k False s (awaitBind priority e.awaitable s).2 :=
          awaitBind_edits priority e.awaitable s hs.tidy fun hf => hf.elim
        rwa [hb] at h
      have hs1 := hs.edits (by simp) (hedits s.nextToken)
      obtain ⟨as, s2, hbs, hnow2, has⟩ := awaitBindAll_flow priority he.2 s1 hs1
      have hedits2 : Edits none s1.nextToken False s1 s2 := by
        have h : Edits none s1.nextToken False s1
            (awaitBindAll priority (Flow.awaitables es) s1).2 :=
          awaitBindAll_edits priority (Flow.awaitables es) s1 hs1.tidy fun hf => hf.elim
        rwa [hbs] at h
      refine ⟨a :: as, s2, ?_, hnow2.trans hnow, a, as, rfl, ?_, has⟩
      · simp only [Flow.awaitables, awaitBindAll, hb, hbs]
      · exact ha.keep hnow2 fun c n h => h.edits hs1 hedits2 (Nat.le_refl _)
end

/-! ### await_ready -/

mutual
theorem awaitReady_flow {e : Flow P.User} {a : Awaitable P.User} (h : e.Bound False s a) :
    ∃ b, awaitReady a s = (e.ready s.now, b, s) ∧ e.Bound True s b := by
  cases e with
  | delay time own =>
      obtain ⟨priority, rfl⟩ := h
      exact ⟨_, rfl, priority, rfl⟩
  | «until» time own =>
      obtain ⟨priority, rfl⟩ := h
      exact ⟨_, rfl, priority, rfl⟩
  | process f o body =>
      obtain ⟨p, rfl, hlat, hp⟩ := h
      obtain ⟨g, t, es, hst, -⟩ := hp.expects
      refine ⟨_, ?_, p, rfl, hlat, hp⟩
      simp only [awaitReady, CoroData.complete, hst]
      rfl
  | sequential es o =>
      obtain ⟨p, rfl, hlat, hp⟩ := h
      obtain ⟨g, t, es', hst, -⟩ := hp.expects
      refine ⟨_, ?_, p, rfl, hlat, hp⟩
      simp only [awaitReady, CoroData.complete, hst]
      rfl
  | comp cond latency own es =>
      obtain ⟨d, as, rfl, rfl, hlat, -, has⟩ := h
      obtain ⟨bs, hr, hbs, hlen⟩ := awaitReadyAll_flow has
      let d' : Comp := { d with
        remaining := (Flow.readies s.now es).count false
        ready := Flow.readies s.now es }
      refine ⟨.comp d' bs, ?_, d', bs, rfl, rfl, hlat, fun _ => ⟨rfl, rfl⟩, hbs⟩
      have hholds := Condition.holds_eq_needless d.cond (Flow.readies s.now es)
      rw [show (Flow.readies s.now es).length = as.length by
        rw [Flow.readies_eq, List.length_map, hlen]] at hholds
      simp only [awaitReady, hr, hholds]
      rfl

theorem awaitReadyAll_flow {es : List (Flow P.User)} {as : List (Awaitable P.User)}
    (h : Flow.BoundAll False s es as) :
    ∃ bs, awaitReadyAll as s = (Flow.readies s.now es, bs, s) ∧ Flow.BoundAll True s es bs ∧
      as.length = es.length := by
  cases es with
  | nil =>
      obtain rfl : as = [] := h
      exact ⟨[], rfl, rfl, rfl⟩
  | cons e es =>
      obtain ⟨a, as, rfl, ha, has⟩ := h
      obtain ⟨b, hr, hb⟩ := awaitReady_flow ha
      obtain ⟨bs, hrs, hbs, hlen⟩ := awaitReadyAll_flow has
      refine ⟨b :: bs, ?_, ⟨b, bs, rfl, hb, hbs⟩, congrArg Nat.succ hlen⟩
      simp only [awaitReadyAll, hr, hrs]
      rfl
end

/-! ### await_suspend -/

/-- What the phases after `s` leave to `F` of the tokens from `m` on. Token `m` itself may have
been handed a handler. -/
structure State.Leaves (m : TokenId) (s F : State P) : Prop where
  now : F.now = s.now
  nextToken : s.nextToken ≤ F.nextToken
  nextHandler : s.nextHandler ≤ F.nextHandler
  queue : ∀ t ∈ s.queue, t ∈ F.queue
  time : ∀ t, m ≤ t → t < s.nextToken → (∀ e, t ∉ s.events e) →
    (F.tokens t).time = (s.tokens t).time
  handler : ∀ t, m < t → t < s.nextToken → (F.tokens t).handler = (s.tokens t).handler
  handlers : ∀ h < s.nextHandler, F.handlers h = s.handlers h
  completion : ∀ c < s.nextCoro, (s.coros c).unique = false → (F.coros c).unique = false ∧
    ∀ t ∈ (s.coros c).completionTokens, t ∈ (F.coros c).completionTokens

namespace State.Leaves

variable {m k t : TokenId}

theorem ext (h : s'.Leaves m F) (hx : Ext k s s') (hk : s.nextToken ≤ k) : s.Leaves m F where
  now := h.now.trans hx.now
  nextToken := Nat.le_trans hx.nextToken h.nextToken
  nextHandler := Nat.le_trans hx.nextHandler h.nextHandler
  queue t ht := h.queue t (hx.queue t ht)
  time t hle hlt hev := by
    have hev' : ∀ e, t ∉ s'.events e := fun e he => by
      cases hx.eventOld e t he with
      | inl he => exact hev e he
      | inr hge => exact Nat.not_lt.mpr hge hlt
    rw [h.time t hle (Nat.lt_of_lt_of_le hlt hx.nextToken) hev',
      hx.token t (Nat.lt_of_lt_of_le hlt hk) hlt hev]
  handler t hle hlt := by
    rw [h.handler t hle (Nat.lt_of_lt_of_le hlt hx.nextToken),
      (hx.tokenFields t (Nat.lt_of_lt_of_le hlt hk) hlt).1]
  handlers i hi := by
    rw [h.handlers i (Nat.lt_of_lt_of_le hi hx.nextHandler), hx.handler i hi]
  completion c hc hu := by
    have hco := hx.coro c hc
    obtain ⟨hu', hts⟩ := h.completion c (Nat.lt_of_lt_of_le hc hx.nextCoro) (hco.unique.trans hu)
    exact ⟨hu', fun t ht => hts t (hco.shared hu t ht)⟩

theorem install {hd : HandlerId} (h : (s.install t hd).Leaves m F) (hm : m < t) :
    s.Leaves t F where
  now := h.now
  nextToken := h.nextToken
  nextHandler := h.nextHandler
  queue := h.queue
  time u hle hlt hev := by
    rw [h.time u (Nat.le_trans (Nat.le_of_lt hm) hle) hlt hev]
    by_cases hu : u = t
    · subst hu
      simp [State.install, State.setToken]
    · rw [State.install_tokens_ne s hd hu]
  handler u hlt hu := by
    rw [h.handler u (Nat.lt_trans hm hlt) hu, State.install_tokens_ne s hd (Nat.ne_of_gt hlt)]
  handlers := h.handlers
  completion := h.completion

end State.Leaves

/-- An event holds no token that is pending, or held by a process or a handler. -/
theorem Sound.not_event {t : TokenId} (hs : Sound s)
    (ht : t ∈ s.queue ∨ (∃ c, t ∈ (s.coros c).completionTokens) ∨
      ∃ h, (s.handlers h).completionTkn = some t) (e : EventId) : t ∉ s.events e := by
  obtain ⟨gone, own, ho⟩ := hs.owned
  intro he
  have hown := ho.event e t he
  rcases ht with ht | ⟨c, ht⟩ | ⟨h, ht⟩
  · rw [ho.queue t ht] at hown
    cases hown
  · rw [ho.completion c t ht] at hown
    cases hown
  · rw [ho.output h t ht] at hown
    cases hown

/-- `F` is the environment after `await_suspend` of an awaitable that was asked in `sm`. -/
structure State.Final (cd : Option CoroId) (sm F : State P) : Prop where
  sound : Sound sm
  coroData : ∀ c, cd = some c → (sm.coros c).env = .here
  launched : ∀ c n, sm.Launched c n → F.Expects (.ends c) n
  executed : ∀ t ∈ F.executed, t < sm.nextToken
  outstanding : ∀ h, sm.nextHandler ≤ h → h < F.nextHandler → ∃ ts, F.Outstanding h ts

/-- The tokens of the children that wait, and when they are due. -/
theorem decides_of_perm {cond : Condition} {us ts : List TokenId} {due : TokenId → Int}
    (hperm : us.Perm ts) (h : cond.Decides (us.map due) n) : cond.Decides (ts.map due) n where
  mem := (hperm.map due).mem_iff.mp h.mem
  within d hd := h.within d ((hperm.map due).mem_iff.mpr hd)

/-- The children `us` of handler `h`, as `await_suspend` of the composition leaves them. -/
structure State.Children (F : State P) (h : HandlerId) (us : List TokenId)
    (due : TokenId → Int) (ds : List Int) : Prop where
  nodup : us.Nodup
  handler : ∀ u ∈ us, (F.tokens u).handler = some h
  expects : ∀ u ∈ us, F.Expects (.fires u) (due u)
  dues : us.map due = ds

theorem State.Children.nil (F : State P) (h : HandlerId) (due : TokenId → Int) :
    F.Children h [] due [] where
  nodup := .nil
  handler _ hu := by cases hu
  expects _ hu := by cases hu
  dues := rfl

theorem State.Children.cons {h : HandlerId} {t : TokenId} {us : List TokenId}
    {due : TokenId → Int} {ds : List Int} (hc : F.Children h us due ds) (ht : t ∉ us)
    (hh : (F.tokens t).handler = some h) (he : F.Expects (.fires t) n) :
    F.Children h (t :: us) (Function.update due t n) (n :: ds) := by
  have hne : ∀ u ∈ us, Function.update due t n u = due u := fun u hu =>
    Function.update_of_ne (fun hut => ht (by rw [← hut]; exact hu)) ..
  refine ⟨List.nodup_cons.mpr ⟨ht, hc.nodup⟩, fun u hu => ?_, fun u hu => ?_, ?_⟩
  · cases List.mem_cons.mp hu with
    | inl hu => rw [hu]; exact hh
    | inr hu => exact hc.handler u hu
  · cases List.mem_cons.mp hu with
    | inl hu => rw [hu, Function.update_self]; exact he
    | inr hu => rw [hne u hu]; exact hc.expects u hu
  · rw [List.map_cons, Function.update_self, List.map_congr_left hne, hc.dues]

section
variable {cd : Option CoroId} {sm : State P} (hF : sm.Final cd F)
include hF

/-- The token of a process is expected at its end, plus the return latency. -/
theorem State.Final.coroutine {p : Handle} (he : Edits cd sm.nextToken False sm s)
    (hp : sm.Launched p.coro n) (hlat : 0 ≤ p.retLatency)
    (hl : (s.newCompletion p cd).Leaves s.nextToken F) :
    F.Expects (.fires s.nextToken) (n + p.retLatency) := by
  have hp' := hp.edits hF.sound he (Nat.le_refl _)
  obtain ⟨f, t, es, hst, -⟩ := hp'.expects
  have hnew : Edit cd sm.nextToken False s (s.newCompletion p cd) :=
    .newCompletion p cd (.inr rfl) hp'.here.2 (complete_of_status (by simp [hst]))
      fun hf => hf.elim
  have hs' := hF.sound.edits hF.coroData (he.tail hnew)
  have hu : ((s.newCompletion p cd).coros p.coro).unique = false := by
    simp [State.newCompletion, State.setCoro, CoroData.completionToken, hp'.shared]
  have hmem : s.nextToken ∈ ((s.newCompletion p cd).coros p.coro).completionTokens := by
    simp [State.newCompletion, State.setCoro, CoroData.completionToken, hp'.shared]
  have htime : (F.tokens s.nextToken).time = p.retLatency := by
    rw [hl.time s.nextToken (Nat.le_refl _) (Nat.lt_succ_self _)
      (hs'.not_event (.inr (.inl ⟨_, hmem⟩)))]
    simp [State.newCompletion, State.setCoro, State.newToken]
  obtain ⟨huF, hmemF⟩ := hl.completion p.coro hp'.here.1 hu
  have hc := State.Expects.completion p.coro s.nextToken n (hmemF _ hmem) huF
    (by rw [htime]; exact hlat) (hF.launched _ _ hp)
  rwa [htime] at hc

/-- The token of a timeout is expected at its time. -/
theorem State.Final.timeout {pt priority : Int} (he : Edits cd sm.nextToken False sm s)
    (hpt : sm.now ≤ pt)
    (hl : ((s.newToken ⟨pt, priority, cd, none, none⟩).scheduleToken s.nextToken).Leaves
      s.nextToken F) : F.Expects (.fires s.nextToken) pt := by
  have hnew : Edit cd sm.nextToken False s
      ((s.newToken ⟨pt, priority, cd, none, none⟩).scheduleToken s.nextToken) :=
    .timeout pt priority fun hf => hf.elim
  have hs' := hF.sound.edits hF.coroData (he.tail hnew)
  have hmem : s.nextToken ∈
      ((s.newToken ⟨pt, priority, cd, none, none⟩).scheduleToken s.nextToken).queue :=
    List.mem_append_right _ (List.mem_singleton_self _)
  have htime : (F.tokens s.nextToken).time = pt := by
    rw [hl.time s.nextToken (Nat.le_refl _) (Nat.lt_succ_self _) (hs'.not_event (.inl hmem))]
    simp [State.scheduleToken, State.newToken]
  have hnow : F.now = sm.now := hl.now.trans (Edits.ext he).now
  have hp := State.Expects.pending s.nextToken (hl.queue _ hmem) (by rw [htime, hnow]; exact hpt)
  rwa [htime] at hp

mutual
theorem awaitSuspend_flow {e : Flow P.User} {a a' : Awaitable P.User} (s s' : State P)
    (he : Edits cd sm.nextToken False sm s) (hfit : e.Fits P) (hb : e.Bound True sm a)
    (hsus : Suspendable sm a) (hr : e.ready sm.now = false)
    (hok : awaitSuspend cd a s = (.ok a', s')) (hl : s'.Leaves s.nextToken F) :
    F.Expects (.fires s.nextToken) (sm.now + e.dur sm.now) := by
  have hnow : s.now = sm.now := (Edits.ext he).now
  cases e with
  | delay time own =>
      obtain ⟨priority, rfl⟩ := hb
      simp only [awaitSuspend, Prod.mk.injEq, if_true] at hok
      obtain ⟨-, rfl⟩ := hok
      rw [hnow] at hl
      have hpos : 0 ≤ time := hfit
      exact hF.timeout he (show sm.now ≤ sm.now + time by omega) hl
  | «until» time own =>
      obtain ⟨priority, rfl⟩ := hb
      simp only [awaitSuspend, Prod.mk.injEq, Bool.false_eq_true, if_false] at hok
      obtain ⟨-, rfl⟩ := hok
      have hlt : sm.now < time := Int.not_le.mp (of_decide_eq_false hr)
      have hdur : sm.now + Flow.dur sm.now (.until time own : Flow P.User) = time := by
        simp only [Flow.dur]
        omega
      rw [hdur]
      exact hF.timeout he (Int.le_of_lt hlt) hl
  | process f o body =>
      obtain ⟨-, h1, h2, -, h3⟩ := hfit
      obtain ⟨p, rfl, hlat, hp⟩ := hb
      cases hok
      have hc := hF.coroutine he hp (by rw [hlat]; exact h2) hl
      rw [hlat] at hc
      simpa only [Flow.dur, Int.add_assoc] using hc
  | sequential es o =>
      obtain ⟨-, h1, h2, h3⟩ := hfit
      obtain ⟨p, rfl, hlat, hp⟩ := hb
      cases hok
      have hc := hF.coroutine he hp (by rw [hlat]; exact h2) hl
      rw [hlat] at hc
      simpa only [Flow.dur, Int.add_assoc] using hc
  | comp cond latency own es =>
      obtain ⟨d, as, rfl, rfl, rfl, hask, has⟩ := hb
      obtain ⟨hready, hrem⟩ := hask trivial
      simp only [awaitSuspend] at hok
      rcases hall : awaitSuspendAll cd s.nextHandler d.ready as (s.newHandler d as.length cd)
        with ⟨_ | as', s1⟩ <;> rw [hall] at hok <;> cases hok
      have hnew : Edit cd sm.nextToken False s (s.newHandler d as.length cd) :=
        .newHandler d as.length fun hf => hf.elim
      have hhd : (s.newHandler d as.length cd).handlers s.nextHandler =
          ⟨d.cond, as.length, d.remaining, some s.nextToken⟩ := by
        simp [State.newHandler]
      have hcd : ((s.newHandler d as.length cd).tokens s.nextToken).coroData = cd := by
        simp [State.newHandler, State.newToken]
      have hsus' : SuspendableAll sm d.ready as := hsus
      have hspec := awaitSuspendAll_spec cd s.nextHandler s.nextToken as d.ready
        (s.newHandler d as.length cd)
        (hF.sound.edits hF.coroData (he.tail hnew)).tidy
        ((Edits.ext (he.tail hnew)).suspendableAll hsus') (fun hf => hf.elim)
        (Nat.lt_succ_self _) (by rw [hhd]) (Nat.lt_succ_self _) hcd
      rw [hall] at hspec
      have hrest : Edits cd sm.nextToken False (s.newHandler d as.length cd) s' :=
        hspec.1.mono (Edits.ext (he.tail hnew)).nextToken
      have hs' := hF.sound.edits hF.coroData ((he.tail hnew).trans hrest)
      have hx := Edits.ext hspec.1
      rw [hready] at hall
      obtain ⟨us, due, hkids, hrange⟩ := awaitSuspendAll_flow s.nextToken s.nextHandler
        (s.newHandler d as.length cd) s' (he.tail hnew) hfit.2.2 has (hready ▸ hsus')
        (Nat.lt_succ_self _) (by rw [hhd]) (Nat.lt_succ_self _) hcd hall hl (Nat.lt_succ_self _)
      -- the handler and the output token are as `newHandler` left them
      have hlt : s.nextHandler < s'.nextHandler := hx.nextHandler
      have hhd' : s'.handlers s.nextHandler =
          ⟨d.cond, as.length, d.remaining, some s.nextToken⟩ := by
        rw [hx.handler _ (Nat.lt_succ_self _), hhd]
      have hhdF := (hl.handlers _ hlt).trans hhd'
      have hev := hs'.not_event (t := s.nextToken) (.inr (.inr ⟨s.nextHandler, by rw [hhd']⟩))
      have hev0 : ∀ e, s.nextToken ∉ (s.newHandler d as.length cd).events e :=
        (hF.sound.edits hF.coroData (he.tail hnew)).not_event
          (.inr (.inr ⟨s.nextHandler, by rw [hhd]⟩))
      have htime : (F.tokens s.nextToken).time = d.latency := by
        rw [hl.time _ (Nat.le_refl _) hx.nextToken hev,
          hx.token _ (Nat.lt_succ_self _) (Nat.lt_succ_self _) hev0]
        simp [State.newHandler, State.newToken]
      -- the tokens that have yet to report are those of the children that wait
      obtain ⟨ts, hts⟩ := hF.outstanding s.nextHandler (Edits.ext he).nextHandler
        (Nat.lt_of_lt_of_le hlt hl.nextHandler)
      have hsub : us ⊆ ts := fun u hu => by
        obtain ⟨hle, hlt'⟩ := hrange u hu
        refine (hts.mem u).mpr ⟨Nat.lt_of_lt_of_le hlt' hl.nextToken, hkids.handler u hu, ?_⟩
        exact fun hex => Nat.not_lt.mpr
          (Nat.le_trans (Edits.ext (he.tail hnew)).nextToken hle) (hF.executed u hex)
      have hlen : ts.length ≤ us.length := by
        rw [← hts.remaining, hhdF, ← List.length_map (f := due), hkids.dues, Flow.dues_length]
        exact Nat.le_of_eq hrem
      have hperm : us.Perm ts :=
        (List.subperm_of_subset hkids.nodup hsub).perm_of_length_le hlen
      have hr' : d.cond.needless (Flow.readies sm.now es) = false := hr
      have hdec := Flow.dues_decide hfit.2.2 hfit.2.1 hr'
      rw [← hkids.dues] at hdec
      have hout := State.Expects.output (s := F) s.nextHandler s.nextToken ts due
        (sm.now + d.cond.choose (Flow.durs sm.now es)) (by rw [hhdF])
        (by rw [htime]; exact hfit.1) hts
        (fun u hu => hkids.expects u (hperm.mem_iff.mpr hu))
        (by rw [hhdF]; exact decides_of_perm hperm hdec)
      rw [htime] at hout
      simp only [Flow.dur, hr', Bool.false_eq_true, if_false]
      rwa [Int.add_assoc] at hout

theorem awaitSuspendAll_flow {es : List (Flow P.User)} {as as' : List (Awaitable P.User)}
    (out : TokenId) (hd : HandlerId) (s s' : State P) (he : Edits cd sm.nextToken False sm s)
    (hfit : Flow.FitAll P es) (hb : Flow.BoundAll True sm es as)
    (hsus : SuspendableAll sm (Flow.readies sm.now es) as) (hh : hd < s.nextHandler)
    (hout : (s.handlers hd).completionTkn = some out) (hlt : out < s.nextToken)
    (hcd : (s.tokens out).coroData = cd)
    (hok : awaitSuspendAll cd hd (Flow.readies sm.now es) as s = (.ok as', s'))
    {m : TokenId} (hl : s'.Leaves m F) (hm : m < s.nextToken) :
    ∃ us due, F.Children hd us due (Flow.dues sm.now es) ∧
      ∀ u ∈ us, s.nextToken ≤ u ∧ u < s'.nextToken := by
  cases es with
  | nil =>
      obtain rfl : as = [] := hb
      cases hok
      exact ⟨[], fun _ => 0, .nil F hd _, fun u hu => by cases hu⟩
  | cons e es =>
      obtain ⟨a, as, rfl, ha, has⟩ := hb
      cases hr : e.ready sm.now with
      | true =>
          have hready : Flow.readies sm.now (e :: es) = true :: Flow.readies sm.now es := by
            rw [Flow.readies, hr]
          have hdues : Flow.dues sm.now (e :: es) = Flow.dues sm.now es := by
            unfold Flow.dues
            rw [List.filter_cons_of_neg (by simp [hr])]
          rw [hready] at hok hsus
          simp only [awaitSuspendAll, List.headD_cons, List.tail_cons, if_true] at hok
          rcases hall : awaitSuspendAll cd hd (Flow.readies sm.now es) as s with ⟨_ | as', s1⟩ <;>
            rw [hall] at hok <;> cases hok
          rw [hdues]
          exact awaitSuspendAll_flow out hd s s' he hfit.2 has hsus.2 hh hout hlt hcd hall hl hm
      | false =>
          have hready : Flow.readies sm.now (e :: es) = false :: Flow.readies sm.now es := by
            rw [Flow.readies, hr]
          have hdues : Flow.dues sm.now (e :: es) =
              (sm.now + e.dur sm.now) :: Flow.dues sm.now es := by
            unfold Flow.dues
            rw [List.filter_cons_of_pos (by simp [hr]), List.map_cons]
          rw [hready] at hok hsus
          have hsus1 : Suspendable sm a := hsus.1 rfl
          have hs := hF.sound.edits hF.coroData he
          simp only [awaitSuspendAll, List.headD_cons, List.tail_cons, Bool.false_eq_true,
            if_false] at hok
          obtain ⟨he1, hspec⟩ := awaitSuspend_spec cd a s hs.tidy
            ((Edits.ext he).suspendable hsus1) (fun hf => hf.elim)
          rcases hone : awaitSuspend cd a s with ⟨_ | a1, s1⟩ <;> rw [hone] at hok he1
          · cases hok
          · obtain ⟨htkn, hlt1, hcr⟩ := hspec a1 s1 hone
            have hx := Edits.ext he1
            have hinst : Edit cd s.nextToken False s1 (s1.install s.nextToken hd) := by
              refine .install _ hd (Nat.le_refl _) hlt1 (Nat.lt_of_lt_of_le hh hx.nextHandler)
                (hcr.free_handler (Nat.le_refl _) hlt1) (hcr.eptr _ (Nat.le_refl _) hlt1) ?_
              intro out' hout'
              rw [hx.handler hd hh, hout] at hout'
              cases hout'
              rw [(hx.tokenFields out hlt hlt).2.1, hcd, hcr.coroData _ (Nat.le_refl _) hlt1]
            have he2 := Edits.mono (Edits.ext he).nextToken (he1.tail hinst)
            have hx2 := Edits.ext (he1.tail hinst)
            simp only [htkn, installOn] at hok
            rcases hall : awaitSuspendAll cd hd (Flow.readies sm.now es) as
              (s1.install s.nextToken hd) with ⟨_ | as', s2⟩ <;> rw [hall] at hok <;> cases hok
            have hlt2 := Nat.lt_of_lt_of_le hlt hx2.nextToken
            have hh2 := Nat.lt_of_lt_of_le hh hx2.nextHandler
            have hout2 := (congrArg Handler.completionTkn (hx2.handler hd hh)).trans hout
            have hcd2 := (hx2.tokenFields out hlt hlt).2.1.trans hcd
            have hspec2 := awaitSuspendAll_spec cd hd out as (Flow.readies sm.now es)
              (s1.install s.nextToken hd) (hF.sound.edits hF.coroData (he.trans he2)).tidy
              ((Edits.ext (he.trans he2)).suspendableAll hsus.2) (fun hf => hf.elim)
              hh2 hout2 hlt2 hcd2
            rw [hall] at hspec2
            have hl2 : (s1.install s.nextToken hd).Leaves m F :=
              hl.ext (Edits.ext hspec2.1) (Nat.le_refl _)
            have hm2 : m < (s1.install s.nextToken hd).nextToken := Nat.lt_trans hm hlt1
            obtain ⟨us, due, hkids, hrange⟩ := awaitSuspendAll_flow out hd _ s' (he.trans he2)
              hfit.2 has hsus.2 hh2 hout2 hlt2 hcd2 hall hl hm2
            have hfirst := awaitSuspend_flow s s1 he hfit.1 ha hsus1 hr hone (hl2.install hm)
            have hhF : (F.tokens s.nextToken).handler = some hd := by
              rw [hl2.handler s.nextToken hm hlt1, State.install_handler]
            rw [hdues]
            refine ⟨s.nextToken :: us, _, hkids.cons (fun hu => ?_) hhF hfirst, fun u hu => ?_⟩
            · exact Nat.not_lt.mpr (hrange _ hu).1 hlt1
            · cases List.mem_cons.mp hu with
              | inl hu =>
                  rw [hu]
                  exact ⟨Nat.le_refl _, Nat.lt_of_lt_of_le hlt1 (Edits.ext hspec2.1).nextToken⟩
              | inr hu =>
                  exact ⟨Nat.le_trans (Nat.le_of_lt hlt1) (hrange u hu).1, (hrange u hu).2⟩
end


end

/-! ### co_await -/

mutual
theorem Flow.Bound.checks {asked : Prop} {e : Flow P.User} {a : Awaitable P.User}
    (h : e.Bound asked s a) : a.Checks := by
  cases e with
  | delay | «until» =>
      obtain ⟨priority, rfl⟩ := h
      trivial
  | process | sequential =>
      obtain ⟨p, rfl, -⟩ := h
      trivial
  | comp cond latency own es =>
      obtain ⟨d, as, rfl, -, -, -, has⟩ := h
      exact Flow.BoundAll.checks has

theorem Flow.BoundAll.checks {asked : Prop} {es : List (Flow P.User)}
    {as : List (Awaitable P.User)} (h : BoundAll asked s es as) : Awaitable.ChecksAll as := by
  cases es with
  | nil =>
      obtain rfl : as = [] := h
      trivial
  | cons e es =>
      obtain ⟨b, bs, rfl, hb, hbs⟩ := h
      exact ⟨Flow.Bound.checks hb, Flow.BoundAll.checks hbs⟩
end

mutual
theorem awaitSuspend_checks {cd : Option CoroId} {a a' : Awaitable P.User} {s s' : State P}
    (ha : a.Checks) (hok : awaitSuspend cd a s = (.ok a', s')) : a'.Checks := by
  cases a with
  | timeout =>
      cases hok
      trivial
  | coroutine p tkn =>
      cases tkn <;> cases hok
      trivial
  | comp d as =>
      simp only [awaitSuspend] at hok
      rcases hall : awaitSuspendAll cd s.nextHandler d.ready as (s.newHandler d as.length cd)
        with ⟨_ | as', s1⟩ <;> rw [hall] at hok <;> cases hok
      exact awaitSuspendAll_checks ha hall
  | _ => exact ha.elim

theorem awaitSuspendAll_checks {cd : Option CoroId} {h : HandlerId} {ready : List Bool}
    {as as' : List (Awaitable P.User)} {s s' : State P} (ha : Awaitable.ChecksAll as)
    (hok : awaitSuspendAll cd h ready as s = (.ok as', s')) : Awaitable.ChecksAll as' := by
  cases as with
  | nil =>
      cases hok
      trivial
  | cons a as =>
      simp only [awaitSuspendAll] at hok
      split at hok
      · rcases hall : awaitSuspendAll cd h ready.tail as s with ⟨_ | as1, s1⟩ <;>
          rw [hall] at hok <;> cases hok
        exact ⟨ha.1, awaitSuspendAll_checks ha.2 hall⟩
      · rcases hone : awaitSuspend cd a s with ⟨_ | a1, s1⟩ <;> rw [hone] at hok
        · cases hok
        · simp only at hok
          rcases hall : awaitSuspendAll cd h ready.tail as (installOn s1 h (awaitToken s1 a1))
            with ⟨_ | as1, s2⟩ <;> rw [hall] at hok <;> cases hok
          exact ⟨awaitSuspend_checks ha.1 hone, awaitSuspendAll_checks ha.2 hall⟩
end

/-- A process that has been launched is expected to end. -/
theorem State.Launched.ends (h : s.Launched c n) : s.Expects (.ends c) n := by
  obtain ⟨f, t, es, hst, hq, hh, hcd, hle, hp, hfit, rfl⟩ := h.expects
  exact .initial c f t es hst hq hh hcd hle hp hfit

/-- Control goes back to `step()` after the last phase. -/
theorem State.Leaves.suspend (s : State P) (c : CoroId) (a : Awaitable P.User)
    (k : Result P.Value P.Error → P.Frame) (m : TokenId) : s.Leaves m (s.suspend c a k) := by
  have hq := Quiet.suspend s c a k
  refine ⟨hq.now, Nat.le_of_eq hq.nextToken.symm, Nat.le_of_eq hq.nextHandler.symm,
    fun t ht => by rw [hq.queue]; exact ht, fun t _ _ _ => by rw [hq.tokens],
    fun t _ _ => by rw [hq.tokens], fun h _ => by rw [hq.handlers], fun q _ hu => ?_⟩
  refine ⟨?_, fun t ht => by rw [hq.completion]; exact ht⟩
  rw [suspend_coros]
  by_cases hqc : q = c
  · subst hqc
    rw [Function.update_self]
    exact hu
  · rw [Function.update_of_ne hqc]
    exact hu

/-- The environment after `await_suspend` in the body of `c`. -/
theorem State.Final.suspend {sm s1 : State P} {a a' : Awaitable P.User}
    {k : Result P.Value P.Error → P.Frame} {f : P.Frame} (hs : Sound sm)
    (hst : (sm.coros c).status = .running f) (hsus : Suspendable sm a) (hask : a.Asked)
    (hok : awaitSuspend (some c) a sm = (.ok a', s1)) :
    sm.Final (some c) (s1.suspend c a' k) := by
  have he := (awaitSuspend_spec (some c) a sm hs.tidy hsus fun hf => hf.elim).1
  have hfull := awaitSuspend_handlers (some c) a sm hs.tidy (.of_wired hs.wired) hsus hask
  rw [hok] at he hfull
  have hx := Edits.ext he
  have hq := Quiet.suspend s1 c a' k
  have hex : ∀ t ∈ sm.executed, t < sm.nextToken := fun t ht => by
    obtain ⟨gone, own, ho⟩ := hs.owned
    exact ho.lt (by rw [ho.executed t ht]; simp)
  have henv := hs.started.env_of_running hst
  refine ⟨hs, fun q hq => by cases hq; exact henv, fun q n hl => ?_, fun t ht => ?_,
    fun h hle hlt => ?_⟩
  · -- a process that has not begun is another one than `c`
    obtain ⟨g, t, es, hst', -⟩ := hl.expects
    have hne : q ≠ c := by
      rintro rfl
      rw [hst] at hst'
      cases hst'
    have hco : (s1.suspend c a' k).coros q = s1.coros q := by
      rw [suspend_coros, Function.update_of_ne hne]
    have hl1 := hl.edits hs he (Nat.le_refl _)
    exact (hl1.keep hq.now (fun t ht => by rw [hq.queue, hq.tokens]; exact ⟨ht, rfl⟩)
      (Nat.le_of_eq (suspend_nextCoro s1 c a' k).symm) (by rw [hco]; exact .refl _)).ends
  · rw [hq.executed, hx.executed] at ht
    exact hex t ht
  · rw [hq.nextHandler] at hlt
    obtain ⟨ts, hk, hrem, htotal⟩ := hfull.full rfl h hle hlt
    refine ⟨ts, hk.nodup, fun t => ?_, by rw [hq.handlers]; exact hrem,
      by rw [hq.handlers]; exact htotal⟩
    rw [hk.mem, hq.nextToken, hq.tokens, hq.executed, hx.executed]
    refine ⟨fun ⟨hlt', hh⟩ => ⟨hlt', hh, fun hex' => ?_⟩, fun ⟨hlt', hh, _⟩ => ⟨hlt', hh⟩⟩
    have hold := hex t hex'
    rw [(hx.tokenFields t hold hold).1] at hh
    exact Nat.not_lt.mpr hle (hs.wired.bounded t h hh)

/-- `co_await` of an expression in the body of `c`: either it is ready and `c` runs on, or `c`
is suspended and its token is expected when the duration has passed. -/
theorem coAwait_flow {e : Flow P.User} {f : P.Frame} (hs : Sound s)
    (hst : (s.coros c).status = .running f) (hcur : s.current = some c) (hun : s.Unraised)
    (hfit : e.Fits P) (k : Result P.Value P.Error → P.Frame)
    (hthrow : s.suspendThrows c e.awaitable = false) :
    (e.ready s.now = true ∧ ∃ s1 target v, (∀ m, Edits none m False s s1) ∧
      s.coAwait c e.awaitable k = s1.deliver c target k (.ok v)) ∨
    (e.ready s.now = false ∧ ∃ a t, (s.coAwait c e.awaitable k).WaitsIn c a k t ∧
      (s.coAwait c e.awaitable k).Expects (.fires t) (s.now + e.dur s.now)) := by
  obtain ⟨a1, s1, hb, hnow, hbound⟩ := awaitBind_flow (s.coros c).priority hfit s hs
  obtain ⟨a2, hr, hbound2⟩ := awaitReady_flow hbound
  have he : ∀ m, Edits none m False s s1 := fun m => by
    have h : Edits none m False s (awaitBind (s.coros c).priority e.awaitable s).2 :=
      awaitBind_edits (s.coros c).priority e.awaitable s hs.tidy fun hf => hf.elim
    rwa [hb] at h
  have hs1 := hs.edits (by simp) (he 0)
  have hx := Edits.ext (he 0)
  have hst1 : (s1.coros c).status = .running f :=
    (hx.coro c (hs.tidy.fresh.lt_of_status (by simp [hst]))).status.trans hst
  have hcur1 := hx.current.trans hcur
  have hbnd : Bound s1 a1 := by
    rw [← e.wrap_awaitable s] at hb
    exact (awaitBind_bound hs.tidy (fun hf => hf.elim) hb).1
  have hsus : e.ready s.now = false → Suspendable s1 a2 := fun hready => by
    have h := awaitReady_suspendable hbnd (by rw [hr, hnow]; exact hready)
    rwa [hr] at h
  have hask : a2.Asked := by
    have h := awaitReady_asked a1 s1
    rwa [hr] at h
  have hthrow' := hthrow
  unfold State.suspendThrows at hthrow'
  unfold State.coAwait
  rw [e.wrap_awaitable] at hthrow' ⊢
  simp only [hb, hr, hnow] at hthrow' ⊢
  cases hready : e.ready s.now with
  | true =>
      refine .inl ⟨rfl, s1, a2.target, ?_⟩
      obtain ⟨v, hv⟩ := awaitResume_checks hbound2.checks (Edits.unraised (he 0) hun)
        fun p tkn ha => by
          -- a process has to wait
          subst ha
          cases e with
          | delay | «until» =>
              obtain ⟨priority, ha⟩ := hbound2
              cases ha
          | process | sequential => cases hready
          | comp =>
              obtain ⟨d, as, ha, -⟩ := hbound2
              cases ha
      refine ⟨v, he, ?_⟩
      simp only [hv]
  | false =>
      refine .inr ⟨rfl, ?_⟩
      have hsus := hsus hready
      simp only [hready, hcur1] at hthrow' ⊢
      rcases hok : awaitSuspend (some c) a2 s1 with ⟨_ | a3, s2⟩ <;> rw [hok] at hthrow'
      · cases hthrow'
      · simp only
        obtain ⟨htkn, hlt, hcr⟩ := (awaitSuspend_spec (some c) a2 s1 hs1.tidy hsus
          fun hf => hf.elim).2 a3 s2 hok
        have hF := State.Final.suspend (k := k) hs1 hst1 hsus hask hok
        have hexp := awaitSuspend_flow hF s1 s2 .refl hfit hbound2 hsus (by rw [hnow]; exact hready)
          hok (.suspend s2 c a3 k s1.nextToken)
        rw [hnow] at hexp
        have hchecks := awaitSuspend_checks hbound2.checks hok
        have htoken : a3.token = some s1.nextToken :=
          (awaitToken_eq s2 hchecks.isRef).symm.trans htkn
        refine ⟨a3, s1.nextToken, ⟨?_, htoken, ?_, ?_, hchecks, fun p tkn ha => .inl ?_⟩, hexp⟩
        · rw [suspend_coros, Function.update_self]
        · rw [(Quiet.suspend s2 c a3 k).tokens]
          exact hcr.free_handler (Nat.le_refl _) hlt
        · rw [(Quiet.suspend s2 c a3 k).tokens]
          exact hcr.coroData _ (Nat.le_refl _) hlt
        · subst ha
          obtain rfl : tkn = some s1.nextToken := htoken
          obtain ⟨-, -, rfl⟩ := awaitSuspend_coroutine hok
          rw [(Quiet.suspend _ c (.coroutine p (some s1.nextToken)) k).completion]
          simp only [State.newCompletion, State.setCoro, Function.update_self,
            CoroData.completionToken]
          split
          · exact List.mem_singleton_self _
          · exact List.mem_append_right _ (List.mem_singleton_self _)

end Cxxdes
