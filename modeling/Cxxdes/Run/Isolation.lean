-- SUMMARY: After a reset no destroyed process is resumed, unless an event still holds a token that leads to one.
import Cxxdes.Run.Current

/-!
# Runs after a reset

`reset` clears the queue, and the completion tokens of the destroyed processes are
never released. The events are not the environment's: they keep the tokens of
their waiters. `Deliverable` tokens are those that pending tokens and waiters
still lead to, through the handlers of compositions. If at the reset none of them
resumes a destroyed process, none ever will.
-/

namespace Cxxdes

variable {P : Program} {s s' : State P}

/-- How many more children have to report before the handler fires. -/
def Handler.needs (h : Handler) : Nat :=
  match h.cond with
  | .anyOf => 1
  | .allOf => h.remaining

/-- The token may still be executed: it is pending, waits in an event, or is the
output token of a composition of which enough children may still be executed. -/
inductive State.Deliverable (s : State P) : TokenId → Prop where
  | pending (t : TokenId) (h : t ∈ s.queue) : Deliverable s t
  | waiting (e : EventId) (t : TokenId) (h : t ∈ s.events e) : Deliverable s t
  | output (i : HandlerId) (out : TokenId) (ts : List TokenId)
      (hout : (s.handlers i).completionTkn = some out) (hnd : ts.Nodup) (hne : ts ≠ [])
      (hts : ∀ t ∈ ts, Deliverable s t) (hi : ∀ t ∈ ts, (s.tokens t).handler = some i)
      (hlen : (s.handlers i).needs ≤ ts.length) : Deliverable s out

/-- The process that `step()` resumes with `t` on top. -/
def State.resumes (s : State P) (t : TokenId) : Option CoroId :=
  match (s.tokens t).handler with
  | some _ => none
  | none => (s.tokens t).coroData

/-- `reset()` destroys the process. -/
def State.Destroys (s : State P) (c : CoroId) : Prop :=
  c ∈ s.managed ∧ (s.coros c).complete = false

/-- Once the queue is cleared, nothing leads to a process that `reset()` destroys. -/
def State.Isolated (s : State P) : Prop :=
  ∀ c t, s.Destroys c → ({ s with queue := [] } : State P).Deliverable t → s.resumes t ≠ some c

/-- Where nobody waits for an event, a composition waits for children that are dropped. -/
theorem State.Isolated.of_events (h : ∀ e, s.events e = []) : s.Isolated := by
  intro c t _ hdel
  exfalso
  induction hdel with
  | pending t ht => cases ht
  | waiting e t ht => exact List.not_mem_nil (h e ▸ ht : t ∈ [])
  | output i out ts hout hnd hne hts hi hlen ih =>
      obtain ⟨u, hu⟩ := List.exists_mem_of_ne_nil ts hne
      exact ih u hu

private theorem le_succ_sizeDecr (n : Nat) : n ≤ 1 + sizeDecr n := by
  unfold sizeDecr
  split <;> omega

theorem resumes_eq_some {t : TokenId} {c : CoroId} :
    s.resumes t = some c ↔ (s.tokens t).handler = none ∧ (s.tokens t).coroData = some c := by
  unfold State.resumes
  split
  · next h => simp [h]
  · next h => simp [h]

theorem State.Deliverable.live {t : TokenId} (h : s.Deliverable t) : s.Live t := by
  cases h with
  | pending _ h => exact .inl h
  | waiting e _ h => exact .inr (.inl ⟨e, h⟩)
  | output i _ ts hout => exact .inr (.inr (.inr ⟨i, hout⟩))

/-- What is deliverable for process `c` after a transition was so before, if the
transition makes no new pending tokens and waiters for `c`. The children `us` that
have reported to a handler in between are counted again. -/
theorem State.Deliverable.back {c : CoroId} {t : TokenId} (hw : Wired s')
    (hbase : ∀ t, (s'.tokens t).coroData = some c →
      (t ∈ s'.queue ∨ ∃ e, t ∈ s'.events e) → s.Deliverable t)
    (htok : ∀ t i, s'.Deliverable t → (s'.tokens t).coroData = some c →
      (s'.tokens t).handler = some i → (s.tokens t).handler = some i)
    (hout : ∀ i out, (s'.tokens out).coroData = some c → (s'.handlers i).completionTkn = some out →
      (s.handlers i).completionTkn = some out ∧ ∃ us : List TokenId, us.Nodup ∧
        (∀ u ∈ us, s.Deliverable u ∧ (s.tokens u).handler = some i ∧ ¬ s'.Deliverable u) ∧
        (s.handlers i).needs ≤ us.length + (s'.handlers i).needs)
    (h : s'.Deliverable t) (hc : (s'.tokens t).coroData = some c) : s.Deliverable t := by
  induction h with
  | pending t h => exact hbase t hc (.inl h)
  | waiting e t h => exact hbase t hc (.inr ⟨e, h⟩)
  | output i out ts hcomp hnd hne hts hi hlen ih =>
      obtain ⟨hcomp0, us, hus, hu, hneeds⟩ := hout i out hc hcomp
      have hname : ∀ t ∈ ts, (s'.tokens t).coroData = some c := fun t ht =>
        (hw.agree t i out (hi t ht) hcomp).symm.trans hc
      refine .output i out (us ++ ts) hcomp0 ?_ ?_ ?_ ?_ ?_
      · refine List.nodup_append.mpr ⟨hus, hnd, ?_⟩
        rintro u hm v hv rfl
        exact (hu u hm).2.2 (hts u hv)
      · simp [hne]
      · intro t ht
        rcases List.mem_append.mp ht with ht | ht
        · exact (hu t ht).1
        · exact ih t ht (hname t ht)
      · intro t ht
        rcases List.mem_append.mp ht with ht | ht
        · exact (hu t ht).2.1
        · exact htok t i (hts t ht) (hname t ht) (hi t ht)
      · rw [List.length_append]
        exact Nat.le_trans hneeds (Nat.add_le_add_left hlen _)

/-! ### The invariant -/

/-- The processes in `D` were destroyed and nothing leads to them any more. -/
structure Buried (D : CoroId → Prop) (s : State P) : Prop where
  dead : ∀ c, D c → (s.coros c).status = .finished ∧ (s.coros c).env = .here
  current : ∀ c, D c → s.current ≠ some c
  silent : ∀ c d t, D c → (s.coros d).complete = false → t ∈ (s.coros d).completionTokens →
    (s.tokens t).coroData ≠ some c
  unreachable : ∀ c t, D c → s.Deliverable t → s.resumes t ≠ some c

namespace Buried

variable {D : CoroId → Prop}

/-- The last part of the invariant, from a look back. -/
theorem unreachable_back (h : Buried D s) {c : CoroId} {t : TokenId} (hc : D c)
    (hback : (s'.tokens t).coroData = some c → s.Deliverable t)
    (htok : (s'.tokens t).coroData = some c →
      (s.tokens t).handler = (s'.tokens t).handler ∧ (s.tokens t).coroData = some c) :
    s'.resumes t ≠ some c := by
  intro hr
  obtain ⟨hfree, hname⟩ := resumes_eq_some.mp hr
  obtain ⟨h1, h2⟩ := htok hname
  exact h.unreachable c t hc (hback hname) (resumes_eq_some.mpr ⟨h1.trans hfree, h2⟩)

/-- Awaiting by a process that is not one of them. -/
theorem edits {cd : Option CoroId} {nn : Prop} (h : Buried D s) (hs : Sound s)
    (hcd : ∀ c, cd = some c → (s.coros c).env = .here) (hcdD : ∀ c, D c → cd ≠ some c)
    (he : Edits cd s.nextToken nn s s') : Buried D s' := by
  have hs' := hs.edits hcd he
  obtain ⟨gone, own, ho⟩ := hs.owned
  obtain ⟨gone', own', ho'⟩ := hs'.owned
  have hx := he.ext
  have hlt : ∀ c, D c → c < s.nextCoro := fun c hc => hs.tidy.fresh.lt (by simp [h.dead c hc])
  have hdead : ∀ c, D c → (s'.coros c).status = .finished ∧ (s'.coros c).env = .here :=
    fun c hc => ⟨(hx.coro c (hlt c hc)).status.trans (h.dead c hc).1,
      ((hx.coro c (hlt c hc)).bound (by simp [h.dead c hc])).1.trans (h.dead c hc).2⟩
  -- a new token does not name a dead process
  have hold : ∀ c t, D c → s'.Live t → (s'.tokens t).coroData = some c → t < s.nextToken := by
    intro c t hc hl hname
    refine Nat.lt_of_not_le fun hge => ?_
    rcases he.named hs hcd hge (ho'.live_lt hl) with hn | hn | ⟨c', f, hn, -, -, -, hst⟩
    · rw [hn] at hname; cases hname
    · exact hcdD c hc (hn.symm.trans hname)
    · obtain rfl : c' = c := Option.some.inj (hn.symm.trans hname)
      rw [(hdead c' hc).1] at hst
      cases hst
  refine ⟨hdead, fun c hc => by rw [hx.current]; exact h.current c hc, ?_, ?_⟩
  · intro c d t hc hinc ht hname
    have htlt := hold c t hc (.inr (.inr (.inl ⟨d, ht⟩))) hname
    have htd := (hx.completionOld d t ht).resolve_right (Nat.not_le.mpr htlt)
    have hd : d < s.nextCoro := by
      refine Nat.lt_of_not_le fun hge => ?_
      rw [hs.tidy.fresh d hge] at htd
      cases htd
    rw [(hx.tokenFields t htlt htlt).2.1] at hname
    exact h.silent c d t hc ((hx.complete hd).symm.trans hinc) htd hname
  · intro c t hc hdel
    refine h.unreachable_back hc (fun hname => ?_) fun hname => ?_
    · refine hdel.back hs'.wired (fun u hu hbase => ?_) (fun u i hu hname hi => ?_)
        (fun i out hname hout => ?_) hname
      · rcases hbase with hq | ⟨e, hq⟩
        · have hlt := hold c u hc (.inl hq) hu
          rcases hx.queueOld u hq with hq | hq | ⟨e, hq⟩
          · exact .pending u hq
          · exact absurd hq (Nat.not_le.mpr hlt)
          · exact .waiting e u hq
        · have hlt := hold c u hc (.inr (.inl ⟨e, hq⟩)) hu
          exact .waiting e u ((hx.eventOld e u hq).resolve_right (Nat.not_le.mpr hlt))
      · have hlt := hold c u hc hu.live hname
        exact (hx.tokenFields u hlt hlt).1.symm.trans hi
      · have hlt := hold c out hc (.inr (.inr (.inr ⟨i, hout⟩))) hname
        have hcomp := (hx.outputOld i out hout).resolve_right (Nat.not_le.mpr hlt)
        have hi : i < s.nextHandler := by
          refine Nat.lt_of_not_le fun hge => ?_
          rw [ho.freshHandler i hge] at hcomp
          cases hcomp
        exact ⟨hcomp, [], .nil, fun u hu => (by cases hu), by simp [hx.handler i hi]⟩
    · have hlt := hold c t hc hdel.live hname
      obtain ⟨h1, h2, -⟩ := hx.tokenFields t hlt hlt
      exact ⟨h1.symm, h2.symm.trans hname⟩

/-- A quiet change that keeps the completed processes complete. -/
theorem quiet (h : Buried D s) (hq : Quiet s s') (hw : Wired s')
    (hdead : ∀ c, D c → (s'.coros c).status = .finished ∧ (s'.coros c).env = .here)
    (hinc : ∀ d, (s'.coros d).complete = false → (s.coros d).complete = false)
    (hcur : ∀ c, D c → s'.current ≠ some c) : Buried D s' := by
  refine ⟨hdead, hcur, fun c d t hc hd ht => ?_, fun c t hc hdel => ?_⟩
  · rw [hq.completion] at ht
    rw [hq.tokens]
    exact h.silent c d t hc (hinc d hd) ht
  · refine h.unreachable_back hc (fun hname => ?_) fun hname => ?_
    · refine hdel.back hw (fun u _ hb => ?_) (fun u i _ _ hi => ?_) (fun i out _ hout => ?_) hname
      · rw [hq.queue, hq.events] at hb
        exact hb.elim (.pending u) fun ⟨e, he⟩ => .waiting e u he
      · rwa [hq.tokens] at hi
      · rw [hq.handlers] at hout
        exact ⟨hout, [], .nil, fun u hu => (by cases hu), by simp [hq.handlers]⟩
    · rw [hq.tokens] at hname ⊢
      exact ⟨rfl, hname⟩

/-- A process that is not one of them gets control, runs on, or is suspended. -/
theorem update {c : CoroId} {st : Status P} (h : Buried D s) (hq : Quiet s s') (hw : Wired s')
    (hinc : (s.coros c).complete = false)
    (hco : s'.coros = Function.update s.coros c { s.coros c with status := st })
    (hcur : ∀ c, D c → s'.current ≠ some c) : Buried D s' := by
  have hne : ∀ d, D d → d ≠ c := by
    rintro d hd rfl
    simp [CoroData.complete, (h.dead d hd).1] at hinc
  refine h.quiet hq hw (fun d hd => ?_) (fun d hd => ?_) hcur
  · rw [hco, Function.update_of_ne (hne d hd)]
    exact h.dead d hd
  · by_cases hdc : d = c
    · rw [hdc]; exact hinc
    · rw [hco, Function.update_of_ne hdc] at hd
      exact hd

theorem continues {nn : Prop} {c : CoroId} (h : Buried D s) (hw : Wired s')
    (hinc : (s.coros c).complete = false) (hcont : Continues nn c s s') : Buried D s' := by
  obtain ⟨g, hco⟩ := hcont.coros
  refine h.update hcont.quiet hw hinc hco fun c' hc' => ?_
  rw [hcont.current]
  exact h.current c' hc'

/-! ### step -/

theorem pop (h : Buried D s) (hw : Wired s) (t : TokenId) : Buried D (s.pop t) := by
  have hw' : Wired (s.pop t) := ⟨hw.agree, hw.bounded, hw.unbound⟩
  refine ⟨h.dead, h.current, h.silent, fun c u hc hdel => ?_⟩
  refine h.unreachable_back hc (fun hname => ?_) fun hname => ⟨rfl, hname⟩
  refine hdel.back hw' (fun v _ hb => ?_) (fun v i _ _ hi => hi) (fun i out _ hout => ?_) hname
  · rcases hb with hb | ⟨e, hb⟩
    · exact .pending v (List.mem_of_mem_erase hb)
    · exact .waiting e v hb
  · exact ⟨hout, [], .nil, fun u hu => (by cases hu), by simp [State.pop]⟩

/-- A child that reports to its handler was one that the handler was waiting for. -/
theorem count (h : Buried D s) (hs : Sound s) {t : TokenId} (ht : t ∈ s.queue) {i : HandlerId}
    (hi : (s.tokens t).handler = some i) : Buried D ((s.pop t).count i) := by
  obtain ⟨gone, own, ho⟩ := hs.owned
  have hdead : ¬ ((s.pop t).count i).Live t :=
    ((ho.pop ht).count i).executed_notLive (Function.update_self ..)
  have hw' := ((hs.pop ht).count i).wired
  refine ⟨h.dead, h.current, h.silent, fun c u hc hdel => ?_⟩
  refine h.unreachable_back hc (fun hname => ?_) fun hname => ⟨rfl, hname⟩
  refine hdel.back hw' (fun v _ hb => ?_) (fun v j _ _ hj => hj) (fun j out _ hout => ?_) hname
  · rcases hb with hb | ⟨e, hb⟩
    · exact .pending v (List.mem_of_mem_erase hb)
    · exact .waiting e v hb
  · refine ⟨(count_completionTkn (s.pop t) i j).symm.trans hout, ?_⟩
    by_cases hj : j = i
    · subst hj
      refine ⟨[t], by simp, fun u hu => ?_, ?_⟩
      · rw [List.mem_singleton.mp hu]
        exact ⟨.pending t ht, hi, fun hd => hdead hd.live⟩
      · simp only [State.count, State.setHandler, Function.update_self, State.pop, Handler.needs,
          List.length_singleton]
        cases (s.handlers j).cond with
        | anyOf => simp
        | allOf => exact le_succ_sizeDecr _
    · exact ⟨[], .nil, fun u hu => (by cases hu),
        by simp [State.count, State.setHandler, Function.update_of_ne hj, State.pop]⟩

/-- The output token of a handler that fires was deliverable through the child. -/
theorem fire (h : Buried D s) (hs : Sound s) {t out : TokenId} (ht : t ∈ s.queue) {i : HandlerId}
    (hi : (s.tokens t).handler = some i) (hout : (s.handlers i).completionTkn = some out)
    (hf : s.fires i = true) : Buried D ((s.pop t).fire i t out) := by
  have hp := hs.pop ht
  have hw' := (hp.fire hi hout).wired
  have htok := hp.wired.fire_fields hi hout
  have hone : s.Deliverable out := by
    refine .output i out [t] hout (by simp) (by simp) ?_ ?_ ?_
    · intro u hu
      rw [List.mem_singleton.mp hu]
      exact .pending t ht
    · intro u hu
      rw [List.mem_singleton.mp hu]
      exact hi
    · unfold State.fires at hf
      unfold Handler.needs
      cases hcond : (s.handlers i).cond with
      | anyOf => simp
      | allOf =>
          simp only [hcond, Condition.holds, sizeDecr, decide_eq_true_eq] at hf
          simp only [List.length_singleton]
          split at hf <;> omega
  refine ⟨h.dead, h.current, fun c d u hc hd hu => ?_, fun c u hc hdel => ?_⟩
  · rw [(htok u).2]
    exact h.silent c d u hc hd hu
  · refine h.unreachable_back hc (fun hname => ?_) fun hname =>
      ⟨(htok u).1.symm, (htok u).2.symm.trans hname⟩
    refine hdel.back hw' (fun v _ hb => ?_) (fun v j _ _ hj => (htok v).1.symm.trans hj)
      (fun j o _ ho => ?_) hname
    · rcases hb with hb | ⟨e, hb⟩
      · rcases List.mem_append.mp hb with hb | hb
        · exact .pending v (List.mem_of_mem_erase hb)
        · rw [List.mem_singleton.mp hb]; exact hone
      · exact .waiting e v hb
    · have hold : ((s.pop t).handlers j).completionTkn = some o := fire_completionTkn ho
      refine ⟨hold, [], .nil, fun u hu => (by cases hu), ?_⟩
      by_cases hj : j = i
      · subst hj
        simp [State.fire, State.scheduleToken, State.setToken, State.setHandler] at ho
      · simp [State.fire, State.scheduleToken, State.setToken, State.setHandler, State.pop,
          Function.update_of_ne hj]

theorem stepped {t : TokenId} (h : Buried D s) (hs : Sound s) (ht : t ∈ s.queue)
    (hst : Stepped s t s') : Buried D s' := by
  have hw' := (hs.stepped ht hst).wired
  have hp := h.pop hs.wired t
  -- the token does not resume a dead process
  have hlive : ∀ c, (s.tokens t).handler = none → (s.tokens t).coroData = some c → ¬ D c :=
    fun c hh hc hd => h.unreachable c t hd (.pending t ht) (resumes_eq_some.mpr ⟨hh, hc⟩)
  cases hst with
  | rethrow i e hh =>
      have h1 := h.count hs ht hh
      exact h1.quiet (.of_coros rfl) hw' h1.dead (fun _ hd => hd) h1.current
  | fire i out hh he hout hf => exact h.fire hs ht hh hout hf
  | count i hh => exact h.count hs ht hh
  | start c f hh hc hst =>
      have hq : Quiet (s.pop t) { s.pop t with current := some c } := .of_coros rfl
      refine hp.update (c := c) ((hq.trans (.setStatus _ c (.running f))).trans (.of_coros rfl))
        hw' (complete_of_status (by simp [State.pop, hst])) rfl fun c' hc' hcur => ?_
      cases hcur
      exact hlive c hh hc hc'
  | resume c a k r s1 hh hc hst hr =>
      have henv := hs.started.token t c hc
      have hlt := hs.tidy.fresh.lt_of_status (c := c) (by simp [hst])
      have hs0 : Sound { s.pop t with current := some c } :=
        (hs.pop ht).quiet (.of_coros rfl) rfl rfl rfl fun c' hc' => by cases hc'; exact henv
      have hcur0 : ∀ c', D c' → some c ≠ some c' := fun c' hc' heq => by
        cases heq
        exact hlive c hh hc hc'
      have h0 : Buried D { s.pop t with current := some c } :=
        hp.quiet (.of_coros rfl) hs0.wired h.dead (fun _ hd => hd) hcur0
      have he : Edits none s.nextToken False { s.pop t with current := some c } s1 :=
        awaitResume_edits_of hr
      have hs1 := hs0.edits (by simp) he
      have h1 := h0.edits hs0 (by simp) (by simp) he
      have hlog : Quiet s1 (s1.log (.resumed c t (s.pop t).now)) := .of_coros rfl
      have h2 : Buried D (s1.log (.resumed c t (s.pop t).now)) :=
        h1.quiet hlog (hlog.wired hs1.wired hs1.wired.unbound) h1.dead (fun _ hd => hd) h1.current
      exact h2.continues hw'
        ((he.ext.complete hlt).trans (complete_of_status (by simp [State.pop, hst])))
        (.deliver False _ c a.target k r)
  | raise e => exact hp.quiet (.of_coros rfl) hw' hp.dead (fun _ hd => hd) hp.current
  | skip => exact hp

/-! ### One action of a body -/

theorem propagateException (h : Buried D s) (hs : Sound s) (c : CoroId) (e : Exn P.Error) :
    Buried D (s.propagateException c e) := by
  have hw' := (hs.propagateException c e).wired
  have htok := propagateException_fields s c e
  rw [State.propagateException_eq] at hw' htok ⊢
  refine ⟨h.dead, h.current, fun d d' t hd hinc ht => ?_, fun d t hd hdel => ?_⟩
  · rw [(htok t).2]
    exact h.silent d d' t hd hinc ht
  · refine h.unreachable_back hd (fun hname => ?_) fun hname =>
      ⟨(htok t).1.symm, (htok t).2.symm.trans hname⟩
    refine hdel.back hw' (fun v _ hb => ?_) (fun v j _ _ hj => (htok v).1.symm.trans hj)
      (fun j o _ ho => ⟨ho, [], .nil, fun u hu => (by cases hu), by simp⟩) hname
    rcases hb with hb | ⟨e, hb⟩
    · exact .pending v hb
    · exact .waiting e v hb

/-- The completion tokens of a process that was not complete lead to none of them. -/
theorem doReturn (h : Buried D s) (hs : Sound s) {c : CoroId} (henv : (s.coros c).env = .here)
    (hinc : (s.coros c).complete = false) (r : Result P.Value P.Error) :
    Buried D (s.doReturn c r) := by
  have hw' := (hs.doReturn henv r).wired
  have htok := doReturn_fields s c r
  rw [State.doReturn_eq] at hw' htok ⊢
  refine ⟨fun d hd => ?_, fun d hd hcur => (by cases hcur), fun d d' t hd hinc' ht => ?_,
    fun d t hd hdel => ?_⟩
  · by_cases hdc : d = c
    · subst hdc; simpa using henv
    · simpa [Function.update_of_ne hdc] using h.dead d hd
  · rw [(htok t).2]
    by_cases hdc : d' = c
    · subst hdc; simp at ht
    · simp only [Function.update_of_ne hdc] at hinc' ht
      exact h.silent d d' t hd hinc' ht
  · refine h.unreachable_back hd (fun hname => ?_) fun hname =>
      ⟨(htok t).1.symm, (htok t).2.symm.trans hname⟩
    refine hdel.back hw' (fun v hv hb => ?_) (fun v j _ _ hj => (htok v).1.symm.trans hj)
      (fun j o _ ho => ⟨by simpa using ho, [], .nil, fun u hu => (by cases hu), by simp⟩) hname
    rcases hb with hb | ⟨e, hb⟩
    · have hb : v ∈ s.queue ++ (s.coros c).completionTokens := by simpa using hb
      rcases List.mem_append.mp hb with hb | hb
      · exact .pending v hb
      · exact absurd ((htok v).2.symm.trans hv) (h.silent d c v hd hinc hb)
    · exact .waiting e v (by simpa using hb)

theorem ran {nn : Prop} {c : CoroId} {f : P.Frame} {act : Action P.User P.Frame P.Value P.Error}
    (h : Buried D s) (hs : Sound s) (hst : (s.coros c).status = .running f)
    (hr : Ran nn s c act s') : Buried D s' := by
  have hw' := (hs.ran hst hr).wired
  have henv := hs.started.env_of_running hst
  have hinc : (s.coros c).complete = false := complete_of_status (by simp [hst])
  have hlt : c < s.nextCoro := hs.tidy.fresh.lt (by simp [henv])
  have hkeep : ∀ {n s1}, Ext n s s1 → (s1.coros c).complete = false := fun he =>
    (he.complete hlt).trans hinc
  cases hr with
  | continues s1 _ he hcont =>
      exact (h.edits hs (by simp) (by simp) he).continues hw' (hkeep he.ext) hcont
  | throws a k sm s1 _ hact hthrow hm he hcont =>
      have hsm := hs.edits (by simp) hm
      have hcd : ∀ c', s.current = some c' → (sm.coros c').env = .here := fun c' hc' =>
        hsm.started.current c' (hm.ext.current.trans hc')
      have h1 := (h.edits hs (by simp) (by simp) hm).edits hsm hcd h.current he
      exact h1.continues hw' (hkeep (hm.ext.trans (he.mono hm.ext.nextToken).ext)) hcont
  | suspends a a' k sm s1 hact hm he =>
      have hsm := hs.edits (by simp) hm
      have hcd : ∀ c', s.current = some c' → (sm.coros c').env = .here := fun c' hc' =>
        hsm.started.current c' (hm.ext.current.trans hc')
      have h1 := (h.edits hs (by simp) (by simp) hm).edits hsm hcd h.current he
      exact h1.update (.suspend s1 c a' k) hw'
        (hkeep (hm.ext.trans (he.mono hm.ext.nextToken).ext)) (suspend_coros s1 c a' k)
        fun c' _ hc' => by rw [suspend_current] at hc'; cases hc'
  | returns v =>
      have hq : Quiet s (s.setCoro c { s.coros c with returnValue := v }) := .setCoro s c _ rfl rfl
      have h1 : Sound (s.setCoro c { s.coros c with returnValue := v }) :=
        hs.update hq rfl henv hinc rfl henv rfl hs.started.current
      have h2 : Buried D (s.setCoro c { s.coros c with returnValue := v }) := by
        refine h.quiet hq h1.wired (fun d hd => ?_) (fun d hd => ?_) h.current
        · by_cases hdc : d = c
          · subst hdc; simpa [State.setCoro] using h.dead d hd
          · simpa [State.setCoro, Function.update_of_ne hdc] using h.dead d hd
        · by_cases hdc : d = c
          · rw [hdc]; exact hinc
          · simpa [State.setCoro, Function.update_of_ne hdc] using hd
      exact h2.doReturn h1 (by simpa [State.setCoro] using henv)
        (by simpa [State.setCoro, CoroData.complete] using hinc) _
  | fails e =>
      have h1 := h.propagateException hs c e
      have hs1 := hs.propagateException c e
      rw [State.propagateException_eq] at h1 hs1 ⊢
      exact h1.doReturn hs1 henv hinc _

end Buried

/-! ### Runs -/

theorem Step.buried {D : CoroId → Prop} {l : Label P} (hstep : Step s l s') (hs : Sound s)
    (h : Buried D s) : Buried D s' := by
  have hw' := (hstep.sound hs).wired
  cases hstep with
  | call f o =>
      have he : Edits none s.nextToken False s (s.newCoro (.user (P.start f)) o) :=
        .single (.newCoro _ o (.user f) (by simp))
      exact h.edits hs (by simp) (by simp) he
  | bind a =>
      have he : Edits none s.nextToken False s (s.bind a) := bind_call_edits hs.tidy a (by simp)
      exact h.edits hs (by simp) (by simp) he
  | elsewhere c henv =>
      have hne : ∀ d, D d → d ≠ c := by
        rintro d hd rfl
        rw [(h.dead d hd).2] at henv
        cases henv
      refine h.quiet (.setCoro s c _ rfl rfl) hw' (fun d hd => ?_) (fun d hd => ?_) h.current
      · simpa [State.setCoro, Function.update_of_ne (hne d hd)] using h.dead d hd
      · by_cases hdc : d = c
        · subst hdc; simpa [State.setCoro, CoroData.complete] using hd
        · simpa [State.setCoro, Function.update_of_ne hdc] using hd
  | step t _ htop hst => exact h.stepped hs htop.1 (step_stepped hst)
  | advance deadline =>
      refine ⟨h.dead, h.current, h.silent, fun c t hc hdel => ?_⟩
      refine h.unreachable_back hc (fun hname => ?_) fun hname => ⟨rfl, hname⟩
      refine hdel.back hw' (fun u _ hb => ?_) (fun _ _ _ _ hi => hi)
        (fun _ _ _ ho => ⟨ho, [], .nil, fun u hu => (by cases hu), by simp⟩) hname
      rcases hb with hb | ⟨e, hb⟩
      · exact .pending u hb
      · exact .waiting e u hb
  | exec c _ hex =>
      obtain ⟨f, hst, hran⟩ := exec_ran hs.tidy hex fun _ _ hf => hf.elim
      have hq : Quiet s (s.ran f) := .of_coros rfl
      have hs1 : Sound (s.ran f) := hs.quiet hq rfl rfl rfl hs.started.current
      have h1 : Buried D (s.ran f) := h.quiet hq hs1.wired h.dead (fun _ hd => hd) h.current
      exact h1.ran hs1 hst hran
  | reset hcur hrun =>
      unfold State.reset at hw' ⊢
      rw [State.destroyAll_eq] at hw' ⊢
      refine ⟨fun d hd => ?_, h.current, fun d d' t hd hinc ht => ?_, fun d t hd hdel => ?_⟩
      · by_cases hm : d ∈ s.managed
        · simpa [hm] using (h.dead d hd).2
        · simpa [hm] using h.dead d hd
      · by_cases hm : d' ∈ s.managed
        · simp [hm, CoroData.complete] at hinc
        · simp only [hm, if_false] at hinc ht
          exact h.silent d d' t hd hinc ht
      · refine h.unreachable_back hd (fun hname => ?_) fun hname => ⟨rfl, hname⟩
        refine hdel.back hw' (fun u _ hb => ?_) (fun _ _ _ _ hi => hi)
          (fun _ _ _ ho => ⟨ho, [], .nil, fun u hu => (by cases hu), by simp⟩) hname
        rcases hb with hb | ⟨e, hb⟩
        · cases hb
        · exact .waiting e u hb

/-- After a reset of an isolated state, the destroyed processes are buried. -/
theorem Buried.of_reset (hs : Sound s) (hcur : s.current = none) (hiso : s.Isolated) :
    Buried s.Destroys s.reset := by
  unfold State.reset
  rw [State.destroyAll_eq]
  refine ⟨fun c hc => ?_, fun c _ hc => ?_, fun c d t hc hinc ht => ?_, fun c t hc hdel => ?_⟩
  · simpa [hc.1] using hs.listed.bound c hc.1
  · rw [hcur] at hc; cases hc
  · by_cases hm : d ∈ s.managed
    · simp [hm, CoroData.complete] at hinc
    · simp only [hm, if_false] at hinc ht
      -- a process that is neither managed nor complete has no completion tokens
      have henv : (s.coros d).env ≠ .here := fun henv => hm (hs.listed.managed d henv hinc)
      rw [hs.listed.silent d henv] at ht
      cases ht
  · refine hiso c t hc ?_
    induction hdel with
    | pending t h => cases h
    | waiting e t h => exact .waiting e t h
    | output i out ts hout hnd hne hts hi hlen ih => exact .output i out ts hout hnd hne ih hi hlen

/-- After a reset nothing is pending or managed and the clock is zero. If the state was
isolated, no destroyed process is resumed in any later run. -/
theorem reset_isolates (h : Reachable (fun _ _ => True) s) (hreset : Step s .reset s') :
    s'.queue = [] ∧ s'.managed = [] ∧ s'.now = 0 ∧
    (s.Isolated → ∀ s2, Transition.Runs Step (fun _ _ => True) s' s2 →
      ∀ c, s.Destroys c → ∀ t ∈ s2.queue, s2.resumes t ≠ some c) := by
  cases hreset with
  | reset hcur hrun =>
      refine ⟨rfl, rfl, rfl, fun hiso s2 hruns c hc t ht => ?_⟩
      have hs0 : Sound s.reset := (Step.reset s hcur hrun).sound h.sound
      have hboth : Sound s2 ∧ Buried s.Destroys s2 :=
        hruns.invariant (I := fun s2 => Sound s2 ∧ Buried s.Destroys s2)
          (fun _ _ _ ⟨hs, hb⟩ _ hstep => ⟨hstep.sound hs, hstep.buried hs hb⟩)
          ⟨hs0, Buried.of_reset h.sound hcur hiso⟩
      exact hboth.2.unreachable c t hc (.pending t ht)

namespace relay

/-- Its ten tokens are executed, pending, completion tokens or that of the handler. -/
theorem events_nil (e : EventId) : (polling State.between).events e = [] := by
  obtain ⟨own, gone, ho, -⟩ := (polling_reachable State.between_spec).owned
  refine List.eq_nil_iff_forall_not_mem.mpr fun t ht => ?_
  have hown := ho.event e t ht
  have hlt := ho.lt (t := t) (by simp [hown])
  have hnext : (polling State.between).nextToken = 10 := by decide +kernel
  have hheld : ∀ t < 10, t ∈ (polling State.between).executed ∨
      t ∈ (polling State.between).queue ∨
      (∃ c < 3, t ∈ ((polling State.between).coros c).completionTokens) ∨
      ((polling State.between).handlers 0).completionTkn = some t := by decide +kernel
  rw [hnext] at hlt
  rcases hheld t hlt with h | h | ⟨c, -, h⟩ | h
  · cases hown.symm.trans (ho.executed t h)
  · cases hown.symm.trans (ho.queue t h)
  · cases hown.symm.trans (ho.completion c t h)
  · cases hown.symm.trans (ho.output 0 t h)

theorem polling_reset : Step (polling State.between) .reset (polling State.between).reset := by
  have hcur : (polling State.between).current = none := by decide +kernel
  have hsole := (polling_reachable State.between_spec).sole fun s t hC _ => hC t rfl
  refine .reset _ hcur fun c f hf => ?_
  have hc := hsole c f hf
  rw [hcur] at hc
  cases hc

end relay

theorem reset_isolates_relay : (relay.polling State.between).reset.queue = [] ∧
    ∀ s2, Transition.Runs Step (fun _ _ => True) (relay.polling State.between).reset s2 →
      ∀ c < 3, ∀ t ∈ s2.queue, s2.resumes t ≠ some c := by
  have h := reset_isolates ((relay.polling_reachable State.between_spec).mono fun _ _ _ => trivial)
    relay.polling_reset
  have hdestroys : ∀ c < 3, c ∈ (relay.polling State.between).managed ∧
      ((relay.polling State.between).coros c).complete = false := by decide +kernel
  exact ⟨h.1, fun s2 hruns c hc => h.2.2.2 (.of_events relay.events_nil) s2 hruns c
    (hdestroys c hc)⟩

/-- A process that waits for event 0. -/
def sleeper : Program where
  User := Unit
  Body := Unit
  Memory := Unit
  Value := Unit
  Error := Unit
  start := id
  next _ m _ := (m, .await (.wait 0 0 PriorityConsts.inherit none) fun _ => ())

namespace sleeper

def after (s : State sleeper) (c : CoroId) : State sleeper :=
  match s.exec c with
  | .ok s' => s'
  | .error _ => s

def stepped (s : State sleeper) (t : TokenId) : State sleeper :=
  match s.step t with
  | .ok s' => s'
  | .error _ => s

def bound : State sleeper :=
  ((State.init ()).newCoro (.user ()) {}).bind (.coroutine { coro := 0 } none)

/-- Process 0 waits: the event holds its token 2. -/
def waiting : State sleeper := after (stepped bound 0) 0

/-- Another process has been bound, which wakes the event. -/
def waking : State sleeper := stepped (waiting.reset.bind (.wake 0)) 3

/-- The event has been woken and the second process has returned. -/
def woken : State sleeper := after (after waking 1) 1

theorem waiting_reachable : Reachable (fun _ _ => True) waiting := by
  have h0 : Reachable (fun _ _ => True) (State.init () : State sleeper) := .init (P := sleeper) ()
  have h1 := h0.next (l := .call () {}) trivial (.call _ _ _)
  have h2 : Reachable (fun _ _ => True) bound :=
    h1.next (l := .bind (.coroutine { coro := 0 } none)) trivial (.bind _ _ rfl (by decide))
  have h3 : Reachable (fun _ _ => True) (stepped bound 0) :=
    h2.next (l := .step 0) trivial (.step _ _ _ (State.isTop_singleton rfl) rfl (by decide))
  exact h3.next (l := .exec 0) trivial (.exec _ _ _ rfl (by decide))

theorem waiting_idle (c : CoroId) (f : sleeper.Frame) : (waiting.coros c).status ≠ .running f := by
  intro hf
  have hs := waiting_reachable.sound
  have hlt : c < 1 := hs.tidy.fresh.lt_of_status (by simp [hf])
  obtain rfl : c = 0 := Nat.lt_one_iff.mp hlt
  cases hf

theorem waiting_reset : Step waiting .reset waiting.reset := .reset _ rfl waiting_idle

theorem woken_runs : Transition.Runs Step (fun _ _ => True) waiting.reset woken := by
  have h0 : Transition.Runs Step (fun _ _ => True) waiting.reset waiting.reset := .refl _
  have h1 : Transition.Runs Step (fun _ _ => True) waiting.reset
      (waiting.reset.bind (.wake 0)) :=
    h0.tail (l := .bind (.wake 0)) trivial (.bind _ _ rfl (by decide))
  have h2 : Transition.Runs Step (fun _ _ => True) waiting.reset waking :=
    h1.tail (l := .step 3) trivial (.step _ _ _ (State.isTop_singleton rfl) rfl (by decide))
  have h3 : Transition.Runs Step (fun _ _ => True) waiting.reset (after waking 1) :=
    h2.tail (l := .exec 1) trivial (.exec _ _ _ rfl (by decide))
  exact h3.tail (l := .exec 1) trivial (.exec _ _ _ rfl (by decide))

theorem woken_isTop : woken.IsTop 2 := by
  refine ⟨by decide, fun _ _ => ⟨by decide, fun _ u hu => ?_⟩⟩
  have hu : u ∈ [2, 4] := hu
  rcases List.mem_cons.mp hu with rfl | hu
  · decide
  · rw [List.mem_singleton.mp hu]; decide

end sleeper

/-- A process that waits for an event is resumed after the reset that destroyed it. -/
theorem reset_leaves_waiter :
    (¬ ∀ (P : Program) (s s' s2 : State P), Reachable (fun _ _ => True) s → Step s .reset s' →
      Transition.Runs Step (fun _ _ => True) s' s2 →
      ∀ c, s.Destroys c → ∀ t ∈ s2.queue, s2.resumes t ≠ some c) ∧
    sleeper.woken.IsTop 2 ∧ sleeper.woken.step 2 = .error .resumeComplete := by
  refine ⟨fun h => ?_, sleeper.woken_isTop, rfl⟩
  exact h sleeper _ _ _ sleeper.waiting_reachable sleeper.waiting_reset sleeper.woken_runs 0
    ⟨List.mem_singleton.mpr rfl, rfl⟩ 2 (by decide) rfl

end Cxxdes
