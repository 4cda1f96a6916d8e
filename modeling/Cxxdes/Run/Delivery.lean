-- SUMMARY: The outcome of a shared process reaches every waiter once, as long as no failed process is awaited.
import Cxxdes.Run.Ending

/-!
# Delivery of outcomes

The outcome of a process travels in two ways: its exception in the completion tokens
of those who wait when it ends, its value in `return_value_`. `Awaited` and `Answered`
say what the history of a run tells about the outcome of each process, and where the
tokens of its waiters are.
-/

namespace Cxxdes

variable {P : Program} {s s' : State P}

/-! ### Waiters -/

/-- Process `w` is suspended in a `co_await` of a handle of `c`, with completion token `t`
and return latency `lat`. -/
structure State.SuspendedOn (s : State P) (w c : CoroId) (t : TokenId) (lat : Int) : Prop where
  status : ∃ p k, (s.coros w).status = .suspended (.coroutine p (some t)) k ∧ p.coro = c ∧
    p.retLatency = lat
  coroData : (s.tokens t).coroData = some w
  handler : (s.tokens t).handler = none
  notResumed : s.resumedBy t = []

/-- Where the completion token `t` is with which `w` waits for `c`: held by `c`, pending
since `c` ended, or executed. -/
inductive State.Waits (s : State P) (w c : CoroId) (t : TokenId) (lat : Int) : Prop where
  | registered (on : s.SuspendedOn w c t lat) (mem : t ∈ (s.coros c).completionTokens)
      (time : (s.tokens t).time = lat) (eptr : (s.tokens t).eptr = none)
  | scheduled (r : Result P.Value P.Error) (n : Int) (on : s.SuspendedOn w c t lat)
      (mem : t ∈ s.queue) (ret : s.returnedAs c = [(r, n)])
      (time : (s.tokens t).time = n + lat) (eptr : (s.tokens t).eptr = outcomeEptr r)
  | resumed (r : Result P.Value P.Error) (n : Int) (executed : t ∈ s.executed)
      (ret : s.returnedAs c = [(r, n)]) (res : s.resumedBy t = [(w, n + lat)])
      (mem : .result w (some c) r (n + lat) ∈ s.trace)

/-- Whoever is suspended in a handle is on the record as waiting, and every waiter of a
shared process has its token. -/
structure Awaited (s : State P) : Prop where
  fresh : ∀ t, s.nextToken ≤ t → s.resumedBy t = []
  listed : ∀ w p t k, (s.coros w).status = .suspended (.coroutine p (some t)) k →
    ∃ n, .waiting w p.coro t p.retLatency n ∈ s.trace
  waits : ∀ w c t lat n, .waiting w c t lat n ∈ s.trace →
    s.BoundHere c ∧ ((s.coros c).unique = false → s.Waits w c t lat)

section
variable {w c : CoroId} {t : TokenId} {lat : Int} {gone : List TokenId} {own : TokenId → Owner}

theorem State.SuspendedOn.keep (h : s.SuspendedOn w c t lat)
    (hst : (s'.coros w).status = (s.coros w).status) (htok : s'.tokens t = s.tokens t)
    (hres : s'.resumedBy t = s.resumedBy t) : s'.SuspendedOn w c t lat where
  status := by rw [hst]; exact h.status
  coroData := by rw [htok]; exact h.coroData
  handler := by rw [htok]; exact h.handler
  notResumed := hres.trans h.notResumed

theorem State.SuspendedOn.not_running (h : s.SuspendedOn w c t lat) {c' : CoroId} {f : P.Frame}
    (hrun : (s.coros c').status = .running f) : w ≠ c' := by
  rintro rfl
  obtain ⟨p, k, hst, -⟩ := h.status
  rw [hrun] at hst
  cases hst

/-- What the place of a waiter's token depends on. -/
theorem State.Waits.keep (h : s.Waits w c t lat)
    (hst : s.SuspendedOn w c t lat → (s'.coros w).status = (s.coros w).status)
    (hreg : s.SuspendedOn w c t lat → t ∈ (s.coros c).completionTokens →
      t ∈ (s'.coros c).completionTokens ∧ s'.tokens t = s.tokens t)
    (hq : s.SuspendedOn w c t lat → t ∈ s.queue → t ∈ s'.queue ∧ s'.tokens t = s.tokens t)
    (hret : s'.returnedAs c = s.returnedAs c) (hres : s'.resumedBy t = s.resumedBy t)
    (hex : t ∈ s.executed → t ∈ s'.executed)
    (hmem : ∀ r n, .result w (some c) r n ∈ s.trace → .result w (some c) r n ∈ s'.trace) :
    s'.Waits w c t lat := by
  cases h with
  | registered on mem time eptr =>
      obtain ⟨h1, h2⟩ := hreg on mem
      exact .registered (on.keep (hst on) h2 hres) h1 (by rw [h2, time]) (by rw [h2, eptr])
  | scheduled r n on mem ret time eptr =>
      obtain ⟨h1, h2⟩ := hq on mem
      exact .scheduled r n (on.keep (hst on) h2 hres) h1 (hret.trans ret) (by rw [h2, time])
        (by rw [h2, eptr])
  | resumed r n executed ret res mem =>
      exact .resumed r n (hex executed) (hret.trans ret) (hres.trans res) (hmem r _ mem)

end

/-- An entry about the control of a body. -/
def Obs.Control {V E : Type} : Obs V E → Prop
  | .waiting _ _ _ _ _ => True
  | .result _ _ _ _ => True
  | .raised _ _ => True
  | .started _ _ => True
  | _ => False

theorem State.Logs.control {os : List (Obs P.Value P.Error)} (h : s.Logs os s')
    (hos : ∀ o ∈ os, o.Control) :
    (∀ c, s'.returnedAs c = s.returnedAs c) ∧ ∀ t, s'.resumedBy t = s.resumedBy t := by
  refine ⟨fun c => ?_, fun t => ?_⟩
  · rw [h.returnedAs, List.filterMap_eq_nil_iff.mpr, List.append_nil]
    intro o ho
    have hl := hos o ho
    cases o with
    | returned => exact hl.elim
    | bound | started | waiting | resumed | result | raised => rfl
  · rw [h.resumedBy, List.filterMap_eq_nil_iff.mpr, List.append_nil]
    intro o ho
    have hl := hos o ho
    cases o with
    | resumed => exact hl.elim
    | bound | started | waiting | returned | result | raised => rfl

theorem Awaitable.waiting_control {U V E : Type} {c : CoroId} {now : Int} (a : Awaitable U)
    (o : Obs V E) (ho : o ∈ a.waiting c now) : o.Control := by
  unfold Awaitable.waiting at ho
  split at ho
  · obtain rfl := List.mem_singleton.mp ho
    trivial
  · cases ho

namespace Awaited

theorem init (m : P.Memory) : Awaited (State.init m : State P) where
  fresh _ _ := rfl
  listed _ _ _ _ h := by cases h
  waits _ _ _ _ _ h := by cases h

theorem grown (h : Awaited s) (hs : Sound s) (hg : Grown s s') : Awaited s' := by
  obtain ⟨gone, own, ho⟩ := hs.owned
  obtain ⟨n, hn, hx⟩ := hg.ext
  have htok : ∀ t, own t ≠ .nobody → (∀ e, own t ≠ .event e) → s'.tokens t = s.tokens t := by
    intro t h1 h2
    have hlt := ho.lt h1
    exact hx.token t (Nat.lt_of_lt_of_le hlt hn) hlt fun e he => h2 e (ho.event e t he)
  have hwaiting : ∀ w c t lat m, .waiting w c t lat m ∈ s'.trace ↔
      .waiting w c t lat m ∈ s.trace := fun w c t lat m => hg.quietly.mem _ id
  have hresult : ∀ w c r m, .result w c r m ∈ s.trace → .result w c r m ∈ s'.trace :=
    fun w c r m => (hg.quietly.mem (.result w c r m) id).mpr
  refine ⟨fun t ht => ?_, fun w p t k hst => ?_, fun w c t lat m hm => ?_⟩
  · exact (hg.quietly.resumedBy t).trans (h.fresh t (hx.nextToken.trans ht))
  · obtain ⟨m, hm⟩ := h.listed w p t k (hg.suspended w _ k hst)
    exact ⟨m, (hwaiting ..).mpr hm⟩
  · obtain ⟨hb, hw⟩ := h.waits w c t lat m ((hwaiting ..).mp hm)
    have hc := hx.coro c hb.1
    refine ⟨hx.boundHere hb, fun hu => (hw (hc.unique.symm.trans hu)).keep (fun on => ?_)
      (fun _ hmem => ⟨hc.shared (hc.unique.symm.trans hu) t hmem, ?_⟩)
      (fun _ hmem => ⟨hx.queue t hmem, ?_⟩) (hg.quietly.returnedAs c) (hg.quietly.resumedBy t)
      (fun ht => by rwa [hx.executed]) fun r n => hresult w (some c) r n⟩
    · obtain ⟨p, k, hst, -⟩ := on.status
      exact (hx.coro w (hs.tidy.fresh.lt_of_status (by simp [hst]))).status
    · have h1 := ho.completion c t hmem
      exact htok t (by simp [h1]) (by simp [h1])
    · have h1 := ho.queue t hmem
      exact htok t (by simp [h1]) (by simp [h1])

/-- The body of `c` gets or loses control, with what it logs. -/
theorem goes {c : CoroId} {f : P.Frame} {st : Status P} {os : List (Obs P.Value P.Error)}
    (h : Awaited s) (hrun : (s.coros c).status = .running f) (hg : Goes c st os s s')
    (hos : ∀ o ∈ os, o.Control)
    (hlist : ∀ p t k, st = .suspended (.coroutine p (some t)) k →
      ∃ n, .waiting c p.coro t p.retLatency n ∈ os)
    (hwait : ∀ w c' t lat n, .waiting w c' t lat n ∈ os →
      s'.BoundHere c' ∧ ((s'.coros c').unique = false → s'.Waits w c' t lat)) : Awaited s' := by
  obtain ⟨hret, hres⟩ := hg.logs.control hos
  have hother : ∀ c' ≠ c, s'.coros c' = s.coros c' := fun c' hc => by
    rw [hg.coros, Function.update_of_ne hc]
  have hself : s'.coros c = { s.coros c with status := st } := by
    rw [hg.coros, Function.update_self]
  have hfields : ∀ c', (s'.coros c').env = (s.coros c').env ∧
      (s'.coros c').unique = (s.coros c').unique := fun c' => by
    by_cases hc : c' = c
    · subst hc; rw [hself]; exact ⟨rfl, rfl⟩
    · rw [hother c' hc]; exact ⟨rfl, rfl⟩
  refine ⟨fun t ht => ?_, fun w p t k hst => ?_, fun w c' t lat n hm => ?_⟩
  · rw [hg.quiet.nextToken] at ht
    exact (hres t).trans (h.fresh t ht)
  · by_cases hw : w = c
    · subst hw
      rw [hself] at hst
      obtain ⟨n, hn⟩ := hlist p t k hst
      exact ⟨n, hg.logs.mem.mpr (.inr hn)⟩
    · rw [hother w hw] at hst
      obtain ⟨n, hn⟩ := h.listed w p t k hst
      exact ⟨n, hg.logs.mem.mpr (.inl hn)⟩
  · rcases hg.logs.mem.mp hm with hm | hm
    · obtain ⟨hb, hw⟩ := h.waits w c' t lat n hm
      obtain ⟨h1, h2⟩ := hfields c'
      refine ⟨⟨hg.nextCoro ▸ hb.1, h1.trans hb.2⟩, fun hu => (hw (h2.symm.trans hu)).keep
        (fun on => ?_) (fun _ ht => ⟨?_, ?_⟩) (fun _ ht => ⟨?_, ?_⟩) (hret c') (hres t)
        (fun ht => ?_) fun r n hr => hg.logs.mem.mpr (.inl hr)⟩
      · rw [hother w (on.not_running hrun)]
      · rwa [hg.quiet.completion]
      · rw [hg.quiet.tokens]
      · rwa [hg.quiet.queue]
      · rw [hg.quiet.tokens]
      · rwa [hg.quiet.executed]
    · exact hwait w c' t lat n hm

/-- A process ends: its outcome goes to the tokens it holds, and they become pending. -/
theorem closes {c : CoroId} {f : P.Frame} {r : Result P.Value P.Error} (h : Awaited s)
    (hs : Sound s) (hend : Ended s) (hrun : (s.coros c).status = .running f)
    (hc : Closes c r s s') : Awaited s' := by
  obtain ⟨gone, own, ho⟩ := hs.owned
  have hnone : s.returnedAs c = [] := hend.silent c (not_done_of_status (by simp [hrun]))
  have hres : ∀ t, s'.resumedBy t = s.resumedBy t := fun t => by
    rw [hc.logs.resumedBy]; exact List.append_nil _
  have hret : ∀ c' ≠ c, s'.returnedAs c' = s.returnedAs c' := fun c' hc' => by
    rw [hc.logs.returnedAs]
    simp [Obs.returnedAs, hc'.symm]
  have hfields : ∀ c', (s'.coros c').env = (s.coros c').env ∧
      (s'.coros c').unique = (s.coros c').unique := fun c' => by
    by_cases hc' : c' = c
    · subst hc'; rw [hc.self]; exact ⟨rfl, rfl⟩
    · rw [hc.coro c' hc']; exact ⟨rfl, rfl⟩
  refine ⟨fun t ht => ?_, fun w p t k hst => ?_, fun w c' t lat n hm => ?_⟩
  · rw [hc.nextToken] at ht
    exact (hres t).trans (h.fresh t ht)
  · have hw : w ≠ c := by rintro rfl; rw [hc.self] at hst; cases hst
    rw [hc.coro w hw] at hst
    obtain ⟨n, hn⟩ := h.listed w p t k hst
    exact ⟨n, hc.logs.mem.mpr (.inl hn)⟩
  · have hm : .waiting w c' t lat n ∈ s.trace := (hc.logs.mem.mp hm).resolve_right (by simp)
    obtain ⟨hb, hw⟩ := h.waits w c' t lat n hm
    obtain ⟨h1, h2⟩ := hfields c'
    refine ⟨⟨hc.nextCoro ▸ hb.1, h1.trans hb.2⟩, fun hu => ?_⟩
    have hw := hw (h2.symm.trans hu)
    by_cases hc' : c' = c
    · subst hc'
      cases hw with
      | registered on mem time eptr =>
          have htok := hc.released t mem eptr
          obtain ⟨p, k, hst, hp⟩ := on.status
          refine .scheduled r s.now ⟨⟨p, k, ?_, hp⟩, ?_, ?_, (hres t).trans on.notResumed⟩ ?_ ?_
            ?_ ?_
          · rw [hc.coro w (on.not_running hrun)]; exact hst
          · rw [htok]; exact on.coroData
          · rw [htok]; exact on.handler
          · rw [hc.queue]; exact List.mem_append_right _ mem
          · rw [hc.logs.returnedAs, hnone]; simp [Obs.returnedAs]
          · rw [htok]; simp [time, Int.add_comm]
          · rw [htok]
      | scheduled r' m on mem ret => rw [hnone] at ret; cases ret
      | resumed r' m executed ret => rw [hnone] at ret; cases ret
    · refine hw.keep (fun on => ?_) (fun _ ht => ⟨?_, hc.token t fun h3 => ?_⟩)
        (fun _ ht => ⟨?_, hc.token t (ho.queue_notMem_completion ht c)⟩) (hret c' hc') (hres t)
        (fun ht => by rwa [hc.executed]) fun r n hr => hc.logs.mem.mpr (.inl hr)
      · rw [hc.coro w (on.not_running hrun)]
      · rwa [hc.coro c' hc']
      · have h4 := ho.completion c' t ht
        rw [ho.completion c t h3] at h4
        exact hc' (Owner.completion.inj h4).symm
      · rw [hc.queue]; exact List.mem_append_left _ ht

theorem passes {t : TokenId} (h : Awaited s) (hs : Sound s) (hp : Passes t s s') :
    Awaited s' := by
  obtain ⟨gone, own, ho⟩ := hs.owned
  obtain ⟨os, hlog, hos⟩ := hp.logs
  obtain ⟨hret, hres⟩ := hlog.control fun o ho => by obtain ⟨e, n, rfl⟩ := hos o ho; trivial
  have htok : ∀ u, (∀ i, own u ≠ .output i) → s'.tokens u = s.tokens u := fun u hu =>
    hp.token u fun i hi => hu i (ho.output i u hi)
  refine ⟨fun u hu => ?_, fun w p u k hst => ?_, fun w c u lat n hm => ?_⟩
  · rw [hp.nextToken] at hu
    exact (hres u).trans (h.fresh u hu)
  · rw [hp.coros] at hst
    obtain ⟨n, hn⟩ := h.listed w p u k hst
    exact ⟨n, hlog.mem.mpr (.inl hn)⟩
  · have hm : .waiting w c u lat n ∈ s.trace := (hlog.mem.mp hm).resolve_right fun h1 => by
      obtain ⟨e, n, h2⟩ := hos _ h1
      cases h2
    obtain ⟨hb, hw⟩ := h.waits w c u lat n hm
    refine ⟨⟨hp.nextCoro ▸ hb.1, by rw [hp.coros]; exact hb.2⟩, fun hu => ?_⟩
    rw [hp.coros] at hu
    refine (hw hu).keep (fun _ => by rw [hp.coros]) (fun _ hmem => ⟨by rwa [hp.coros], ?_⟩)
      (fun on hmem => ⟨?_, ?_⟩) (hret c) (hres u)
      (fun hex => by rw [hp.executed]; exact List.mem_append_left _ hex)
      fun r n hr => hlog.mem.mpr (.inl hr)
    · have h1 := ho.completion c u hmem
      exact htok u (by simp [h1])
    · -- a waiter's token has no handler and names the waiter
      refine hp.queue u ((List.mem_erase_of_ne ?_).mpr hmem)
      rintro rfl
      rcases hp.handled with h1 | h1
      · exact h1 on.handler
      · rw [on.coroData] at h1; cases h1
    · have h1 := ho.queue u hmem
      exact htok u (by simp [h1])

/-- The token with which a process waits for a handle and that is pending has the outcome
of the process awaited, at the time it ended plus the return latency. -/
theorem outcome {w : CoroId} {p : Handle} {t : TokenId} {k : Result P.Value P.Error → P.Frame}
    (h : Awaited s) (hs : Sound s) (hend : Ended s) (ht : t ∈ s.queue)
    (hst : (s.coros w).status = .suspended (.coroutine p (some t)) k)
    (hu : (s.coros p.coro).unique = false) :
    ∃ r n, s.returnedAs p.coro = [(r, n)] ∧ (s.tokens t).time = n + p.retLatency ∧
      s.resumedBy t = [] ∧
      (awaitResume (.coroutine p (some t)) { s.pop t with current := some w }).1 = r := by
  obtain ⟨gone, own, ho⟩ := hs.owned
  obtain ⟨m, hm⟩ := h.listed w p t k hst
  cases (h.waits w p.coro t p.retLatency m hm).2 hu with
  | registered on mem =>
      have h1 := ho.completion p.coro t mem
      rw [ho.queue t ht] at h1
      cases h1
  | resumed r n executed =>
      have h1 := ho.executed t executed
      rw [ho.queue t ht] at h1
      cases h1
  | scheduled r n on mem ret time eptr =>
      refine ⟨r, n, ret, time, on.notResumed, ?_⟩
      have hdone : s.Done p.coro := by
        refine Classical.byContradiction fun hnd => ?_
        rw [hend.silent p.coro hnd] at ret
        cases ret
      obtain ⟨r', n', hr', hv⟩ := hend.ended p.coro hdone
      rw [ret] at hr'
      obtain ⟨rfl, rfl⟩ := Prod.mk.inj (List.cons.inj hr').1
      refine awaitResume_outcome eptr fun v hrv => ?_
      exact (returnValue_congr rfl rfl).trans (hv v hrv)

/-- A body gets control when `t` is executed. -/
theorem enters {t : TokenId} {c : CoroId} {f : P.Frame} {os : List (Obs P.Value P.Error)}
    (h : Awaited s) (hs : Sound s) (ht : t ∈ s.queue) (he : Enters t c f os s s')
    (hself : ∀ c' u lat, s.SuspendedOn c c' u lat → u = t)
    (hret : ∀ c', s'.returnedAs c' = s.returnedAs c')
    (hres : ∀ u ≠ t, s'.resumedBy u = s.resumedBy u)
    (hos : ∀ w c' u lat n, .waiting w c' u lat n ∉ os)
    (hhit : ∀ c' lat, s.SuspendedOn c c' t lat → (s.coros c').unique = false →
      ∃ r n, s.returnedAs c' = [(r, n)] ∧ s'.resumedBy t = [(c, n + lat)] ∧
        .result c (some c') r (n + lat) ∈ s'.trace) : Awaited s' := by
  obtain ⟨gone, own, ho⟩ := hs.owned
  have hother : ∀ c' ≠ c, s'.coros c' = s.coros c' := fun c' hc => by
    rw [he.coros, Function.update_of_ne hc]
  have hfields : ∀ c', (s'.coros c').env = (s.coros c').env ∧
      (s'.coros c').unique = (s.coros c').unique ∧
      (s'.coros c').completionTokens = (s.coros c').completionTokens := fun c' => by
    by_cases hc' : c' = c
    · subst hc'; rw [he.coros, Function.update_self]; exact ⟨rfl, rfl, rfl⟩
    · rw [hother c' hc']; exact ⟨rfl, rfl, rfl⟩
  have hex : t ∈ s'.executed := by rw [he.executed]; simp
  refine ⟨fun u hu => ?_, fun w p u k hst => ?_, fun w c' u lat n hm => ?_⟩
  · rw [he.nextToken] at hu
    have hne : u ≠ t := by
      rintro rfl
      exact absurd (ho.queue_lt ht) (Nat.not_lt.mpr hu)
    exact (hres u hne).trans (h.fresh u hu)
  · have hw : w ≠ c := by
      rintro rfl
      rw [he.coros, Function.update_self] at hst
      cases hst
    rw [hother w hw] at hst
    obtain ⟨n, hn⟩ := h.listed w p u k hst
    exact ⟨n, he.logs.mem.mpr (.inl hn)⟩
  · have hm : .waiting w c' u lat n ∈ s.trace :=
      (he.logs.mem.mp hm).resolve_right (hos w c' u lat n)
    obtain ⟨hb, hw⟩ := h.waits w c' u lat n hm
    obtain ⟨h1, h2, h3⟩ := hfields c'
    refine ⟨⟨he.nextCoro ▸ hb.1, h1.trans hb.2⟩, fun huniq => ?_⟩
    rw [h2] at huniq
    by_cases hut : u = t
    · subst hut
      cases hw huniq with
      | registered on mem =>
          have h4 := ho.completion c' u mem
          rw [ho.queue u ht] at h4
          cases h4
      | resumed r m executed =>
          have h4 := ho.executed u executed
          rw [ho.queue u ht] at h4
          cases h4
      | scheduled r m on =>
          have hwc : w = c := by
            have h4 := on.coroData
            rw [he.coroData] at h4
            exact (Option.some.inj h4).symm
          subst hwc
          obtain ⟨r', m', hr', hres', hmem'⟩ := hhit c' lat on huniq
          exact .resumed r' m' hex ((hret c').trans hr') hres' hmem'
    · refine (hw huniq).keep (fun on => ?_) (fun _ hmem => ⟨by rwa [h3], by rw [he.tokens]⟩)
        (fun _ hmem => ⟨?_, by rw [he.tokens]⟩) (hret c') (hres u hut)
        (fun hu => by rw [he.executed]; exact List.mem_append_left _ hu)
        fun r n hr => he.logs.mem.mpr (.inl hr)
      · have hwc : w ≠ c := by
          rintro rfl
          exact hut (hself c' u lat on)
        rw [hother w hwc]
      · rw [he.queue]
        exact (List.mem_erase_of_ne hut).mpr hmem

theorem starts {t : TokenId} {c : CoroId} {f : P.Frame} (h : Awaited s) (hs : Sound s)
    (ht : t ∈ s.queue) (hst : (s.coros c).status = .initial f)
    (he : Enters t c f [.started c s'.now] s s') : Awaited s' := by
  obtain ⟨hret, hres⟩ := he.logs.control (by simp [Obs.Control])
  have hno : ∀ c' u lat, ¬ s.SuspendedOn c c' u lat := by
    intro c' u lat on
    obtain ⟨p, k, h1, -⟩ := on.status
    rw [hst] at h1
    cases h1
  exact h.enters hs ht he (fun c' u lat on => absurd on (hno c' u lat)) hret
    (fun u _ => hres u) (by simp) fun c' lat on => absurd on (hno c' t lat)

theorem resumes {t : TokenId} {c : CoroId} {a : Awaitable P.User}
    {k : Result P.Value P.Error → P.Frame} {r : Result P.Value P.Error} (h : Awaited s)
    (hs : Sound s) (hend : Ended s) (ht : t ∈ s.queue)
    (hnow : (s.pop t).now = (s.tokens t).time) (hst : (s.coros c).status = .suspended a k)
    (htkn : a.token = some t) (hr : (awaitResume a { s.pop t with current := some c }).1 = r)
    (he : Enters t c (k r) [.resumed c t s'.now, .result c a.target r s'.now] s s') :
    Awaited s' := by
  have hself : ∀ c' u lat, s.SuspendedOn c c' u lat → u = t := by
    intro c' u lat on
    obtain ⟨p, k', h1, -⟩ := on.status
    rw [hst] at h1
    cases h1
    exact Option.some.inj htkn
  have hret : ∀ c', s'.returnedAs c' = s.returnedAs c' := fun c' => by
    rw [he.logs.returnedAs]; exact List.append_nil _
  have hres : ∀ u, s'.resumedBy u = s.resumedBy u ++ (if t = u then [(c, s'.now)] else []) := by
    intro u
    rw [he.logs.resumedBy]
    by_cases hut : t = u <;> simp [Obs.resumedBy, hut]
  refine h.enters hs ht he hself hret (fun u hu => ?_) (by simp) fun c' lat on huniq => ?_
  · rw [hres, if_neg fun hut => hu hut.symm, List.append_nil]
  · obtain ⟨p, k', h1, rfl, rfl⟩ := on.status
    rw [hst] at h1
    cases h1
    obtain ⟨r', n, hr', htime, hnone, hval⟩ := h.outcome hs hend ht hst huniq
    rw [hr] at hval
    subst hval
    have hnow' : s'.now = n + p.retLatency := by rw [he.now, hnow, htime]
    refine ⟨r, n, hr', ?_, he.logs.mem.mpr (.inr ?_)⟩
    · rw [hres, hnone, if_pos rfl, hnow']; rfl
    · rw [← hnow']; simp [Awaitable.target]

theorem elsewhere {c : CoroId} (h : Awaited s) (henv : (s.coros c).env = .unbound) :
    Awaited (s.setCoro c { s.coros c with env := .elsewhere }) := by
  have hfields : ∀ c', ∃ env, (s.setCoro c { s.coros c with env := .elsewhere }).coros c' =
      { s.coros c' with env := env } ∧ ((s.coros c').env = .here → env = .here) := by
    intro c'
    by_cases hc' : c' = c
    · subst hc'; exact ⟨.elsewhere, Function.update_self .., by simp [henv]⟩
    · exact ⟨(s.coros c').env, Function.update_of_ne hc' .., id⟩
  refine ⟨h.fresh, fun w p t k hst => ?_, fun w c' t lat n hm => ?_⟩
  · obtain ⟨env, h1, -⟩ := hfields w
    rw [h1] at hst
    exact h.listed w p t k hst
  · obtain ⟨hb, hw⟩ := h.waits w c' t lat n hm
    obtain ⟨env, h1, h2⟩ := hfields c'
    obtain ⟨env', h3, -⟩ := hfields w
    refine ⟨⟨hb.1, by rw [h1]; exact h2 hb.2⟩, fun hu => ?_⟩
    rw [h1] at hu
    refine (hw hu).keep (fun _ => by rw [h3]) (fun _ ht => ⟨by rwa [h1], rfl⟩)
      (fun _ ht => ⟨ht, rfl⟩) rfl rfl id fun _ _ hr => hr

end Awaited

/-! ### Results -/

/-- `r` is the outcome of process `c`, or `c` belongs to another environment. -/
def State.HasOutcome (s : State P) (c : CoroId) (r : Result P.Value P.Error) : Prop :=
  c < s.nextCoro ∧ (s.coros c).env ≠ .unbound ∧
    ((s.coros c).env = .here → (s.coros c).unique = false → ∃ n, s.returnedAs c = [(r, n)])

/-- Every `co_await` of a handle that has ended has yielded the outcome of its process. -/
def Answered (s : State P) : Prop :=
  ∀ w c r n, .result w (some c) r n ∈ s.trace → s.HasOutcome c r

theorem State.HasOutcome.keep {c : CoroId} {r : Result P.Value P.Error} (h : s.HasOutcome c r)
    (hn : s.nextCoro ≤ s'.nextCoro)
    (hco : (s.coros c).env ≠ .unbound → (s'.coros c).env = (s.coros c).env ∧
      (s'.coros c).unique = (s.coros c).unique)
    (hret : ∀ x, s.returnedAs c = [x] → s'.returnedAs c = s.returnedAs c) :
    s'.HasOutcome c r := by
  obtain ⟨h1, h2, h3⟩ := h
  obtain ⟨h4, h5⟩ := hco h2
  refine ⟨Nat.lt_of_lt_of_le h1 hn, by rwa [h4], fun henv hu => ?_⟩
  obtain ⟨n, hr⟩ := h3 (h4.symm.trans henv) (h5.symm.trans hu)
  exact ⟨n, (hret _ hr).trans hr⟩

namespace Answered

theorem keep (h : Answered s)
    (hold : ∀ w c r n, .result w (some c) r n ∈ s'.trace →
      .result w (some c) r n ∈ s.trace ∨ s'.HasOutcome c r)
    (hn : s.nextCoro ≤ s'.nextCoro)
    (hco : ∀ c < s.nextCoro, (s.coros c).env ≠ .unbound →
      (s'.coros c).env = (s.coros c).env ∧ (s'.coros c).unique = (s.coros c).unique)
    (hret : ∀ c x, s.returnedAs c = [x] → s'.returnedAs c = s.returnedAs c) : Answered s' := by
  intro w c r n hm
  rcases hold w c r n hm with h1 | h1
  · have h2 := h w c r n h1
    exact h2.keep hn (hco c h2.1) (hret c)
  · exact h1

theorem init (m : P.Memory) : Answered (State.init m : State P) := fun _ _ _ _ h => by cases h

theorem grown (h : Answered s) (hg : Grown s s') : Answered s' := by
  obtain ⟨m, -, hx⟩ := hg.ext
  refine h.keep (fun w c r n hm => .inl ((hg.quietly.mem _ id).mp hm)) hx.nextCoro
    (fun c hc henv => ?_) fun c _ _ => hg.quietly.returnedAs c
  exact ⟨((hx.coro c hc).bound henv).1, (hx.coro c hc).unique⟩

/-- Only the status of process `c` changes. -/
theorem update {c : CoroId} {st : Status P} {os : List (Obs P.Value P.Error)} (h : Answered s)
    (hlog : s.Logs os s') (hn : s'.nextCoro = s.nextCoro)
    (hco : s'.coros = Function.update s.coros c { s.coros c with status := st })
    (hret : ∀ c, s'.returnedAs c = s.returnedAs c)
    (hos : ∀ w c r n, .result w (some c) r n ∈ os → s.HasOutcome c r) : Answered s' := by
  have hfields : ∀ c', (s'.coros c').env = (s.coros c').env ∧
      (s'.coros c').unique = (s.coros c').unique := fun c' => by
    rw [hco]
    by_cases hc' : c' = c
    · subst hc'; rw [Function.update_self]; exact ⟨rfl, rfl⟩
    · rw [Function.update_of_ne hc']; exact ⟨rfl, rfl⟩
  refine h.keep (fun w c' r n hm => (hlog.mem.mp hm).imp_right fun h1 => ?_) hn.ge
    (fun c' _ _ => hfields c') fun c' _ _ => hret c'
  exact (hos w c' r n h1).keep hn.ge (fun _ => hfields c') fun _ _ => hret c'

theorem closes {c : CoroId} {f : P.Frame} {r : Result P.Value P.Error} (h : Answered s)
    (hend : Ended s) (hrun : (s.coros c).status = .running f) (hc : Closes c r s s') :
    Answered s' := by
  refine h.keep (fun w c' r' n hm => .inl ((hc.logs.mem.mp hm).resolve_right (by simp)))
    hc.nextCoro.ge (fun c' _ _ => ?_) fun c' x hx => ?_
  · by_cases hc' : c' = c
    · subst hc'; rw [hc.self]; exact ⟨rfl, rfl⟩
    · rw [hc.coro c' hc']; exact ⟨rfl, rfl⟩
  · have hc' : c' ≠ c := by
      rintro rfl
      rw [hend.silent c' (not_done_of_status (by simp [hrun]))] at hx
      cases hx
    rw [hc.logs.returnedAs]
    simp [Obs.returnedAs, hc'.symm]

theorem passes {t : TokenId} (h : Answered s) (hp : Passes t s s') : Answered s' := by
  obtain ⟨os, hlog, hos⟩ := hp.logs
  obtain ⟨hret, -⟩ := hlog.control fun o ho => by obtain ⟨e, n, rfl⟩ := hos o ho; trivial
  refine h.keep (fun w c r n hm => .inl ((hlog.mem.mp hm).resolve_right fun h1 => ?_))
    hp.nextCoro.ge (fun c _ _ => by rw [hp.coros]; exact ⟨rfl, rfl⟩) fun c _ _ => hret c
  obtain ⟨e, m, h2⟩ := hos _ h1
  cases h2

theorem elsewhere {c : CoroId} (h : Answered s) (henv : (s.coros c).env = .unbound) :
    Answered (s.setCoro c { s.coros c with env := .elsewhere }) := by
  refine h.keep (fun _ _ _ _ hm => .inl hm) (Nat.le_refl _) (fun c' _ hne => ?_) fun _ _ _ => rfl
  have hc' : c' ≠ c := by rintro rfl; exact hne henv
  rw [show (s.setCoro c { s.coros c with env := .elsewhere }).coros c' = s.coros c' from
    Function.update_of_ne hc' ..]
  exact ⟨rfl, rfl⟩

end Answered

/-! ### All transitions -/

/-- What the history of a run tells about beginnings, ends, waiters and results. -/
structure History (s : State P) : Prop where
  begun : Begun s
  ended : Ended s
  stored : Stored s
  awaited : Awaited s
  answered : Answered s

/-- A handle that is awaited is that of a process that exists and has not failed. -/
def State.AwaitsSound (s : State P) (a : Awaitable P.User) : Prop :=
  ∀ p, a.wrap s = .coroutine p none →
    p.coro < s.nextCoro ∧ ∀ e n, (.error e, n) ∉ s.returnedAs p.coro

/-- A handle object that is moved into the awaitable of a `co_await` is not being awaited. -/
def State.TakesSound (s : State P) (o : HandleId) : Prop :=
  ∀ t, (s.objects o).2 = some t → (s.coros (s.objects o).1.coro).complete = true

namespace History

theorem edits {n : TokenId} {nn : Prop} (h : History s) (hs : Sound s)
    (he : Edits none n nn s s') (hn : s'.nextToken ≤ n) : History s' := by
  have hg := he.grown hs (by simp) (he.ext.nextToken.trans hn)
  exact ⟨h.begun.edits hs he hn, h.ended.grown hs.tidy.fresh hg, h.stored.edits hs (by simp) he,
    h.awaited.grown hs hg, h.answered.grown hg⟩

theorem suspends {cd : Option CoroId} {n : TokenId} {nn : Prop} (h : History s) (hs : Sound s)
    (hcd : ∀ c, cd = some c → (s.coros c).env = .here) (he : Edits cd n nn s s')
    (hn : s.nextToken ≤ n) (hsus : Suspends s s') : History s' := by
  have hg := he.grown hs hcd hn
  exact ⟨h.begun.suspends hs he hn hsus, h.ended.grown hs.tidy.fresh hg, h.stored.edits hs hcd he,
    h.awaited.grown hs hg, h.answered.grown hg⟩

/-- The body of `c` runs on, perhaps with the result of a `co_await`. -/
theorem continues {c : CoroId} {f g : P.Frame} {os : List (Obs P.Value P.Error)}
    (h : History s) (hrun : (s.coros c).status = .running f) (hg : Goes c (.running g) os s s')
    (hos : ∀ o ∈ os, ∃ target r n, o = .result c target r n ∧
      ∀ q, target = some q → s.HasOutcome q r) : History s' := by
  have hlater : ∀ o ∈ os, o.Later ∧ o.Control := fun o ho => by
    obtain ⟨target, r, n, rfl, -⟩ := hos o ho
    exact ⟨trivial, trivial⟩
  have hret := (hg.logs.control fun o ho => (hlater o ho).2).1
  refine ⟨h.begun.goes hrun hg (by simp) fun o ho => (hlater o ho).1,
    h.ended.update hret hg.coros (by simp [hrun]) (by simp),
    h.stored.update hg.objects hg.quiet.nextToken hg.nextCoro hg.coros
      (fun t => by rw [hg.quiet.tokens]) hret (by simp),
    h.awaited.goes hrun hg (fun o ho => (hlater o ho).2) (by simp) fun w c' t lat n hm => ?_,
    h.answered.update hg.logs hg.nextCoro hg.coros hret fun w q r n hm => ?_⟩
  · obtain ⟨target, r, m, h1, -⟩ := hos _ hm
    cases h1
  · obtain ⟨target, r', m, h1, h2⟩ := hos _ hm
    cases h1
    exact h2 q rfl

theorem closes {c : CoroId} {f : P.Frame} {r : Result P.Value P.Error} (h : History s)
    (hs : Sound s) (hrun : (s.coros c).status = .running f) (hc : Closes c r s s') : History s' :=
  ⟨h.begun.closes hs hrun hc, h.ended.closes hs hrun hc, h.stored.closes hs h.ended hrun hc,
    h.awaited.closes hs h.ended hrun hc, h.answered.closes h.ended hrun hc⟩

/-- The body of `c` has suspended in a handle, whose process holds its new token. -/
theorem registers {sm : State P} {c : CoroId} {p : Handle}
    {k : Result P.Value P.Error → P.Frame} (hfresh : sm.resumedBy sm.nextToken = [])
    (hb : sm.BoundHere p.coro) :
    let s' := (sm.newCompletion p (some c)).suspend c (.coroutine p (some sm.nextToken)) k
    s'.BoundHere p.coro ∧ ((s'.coros p.coro).unique = false →
      s'.Waits c p.coro sm.nextToken p.retLatency) := by
  intro s'
  have hco : s'.coros = Function.update (sm.newCompletion p (some c)).coros c
      { (sm.newCompletion p (some c)).coros c with
        status := .suspended (.coroutine p (some sm.nextToken)) k } := suspend_coros ..
  have hnew : (sm.newCompletion p (some c)).coros p.coro =
      (sm.coros p.coro).completionToken sm.nextToken := Function.update_self ..
  have hfields : (s'.coros p.coro).env = (sm.coros p.coro).env ∧
      (s'.coros p.coro).unique = (sm.coros p.coro).unique ∧
      (s'.coros p.coro).completionTokens =
        ((sm.coros p.coro).completionToken sm.nextToken).completionTokens := by
    rw [hco]
    by_cases hc : c = p.coro
    · subst hc; rw [Function.update_self, hnew]; exact ⟨rfl, rfl, rfl⟩
    · rw [Function.update_of_ne (Ne.symm hc), hnew]; exact ⟨rfl, rfl, rfl⟩
  obtain ⟨h1, h2, h3⟩ := hfields
  refine ⟨⟨hb.1, h1.trans hb.2⟩, fun hu => ?_⟩
  have htok : s'.tokens sm.nextToken =
      ⟨p.retLatency, sm.returnPriority p, some c, none, none⟩ := Function.update_self ..
  refine .registered ⟨⟨p, k, ?_, rfl, rfl⟩, by rw [htok], by rw [htok], ?_⟩ ?_ (by rw [htok])
    (by rw [htok])
  · rw [hco, Function.update_self]
  · have hlog : sm.Logs [.waiting c p.coro sm.nextToken p.retLatency sm.now] s' := rfl
    rw [hlog.resumedBy, hfresh]
    rfl
  · rw [h3]
    simp [CoroData.completionToken, ← h2, hu]

theorem did {nn : Prop} {c : CoroId} {f : P.Frame}
    {act : Action P.User P.Frame P.Value P.Error} (h : History s) (hs : Sound s)
    (hcur : s.current = some c) (hst : (s.coros c).status = .running f)
    (hsound : ∀ a k, act = .await a k → s.AwaitsSound a)
    (htake : ∀ o k, act = .move o k → s.TakesSound o)
    (hd : Did nn s c act s') : History s' := by
  have hrun : ∀ {s1}, Edits none s1.nextToken nn s s1 → (s1.coros c).status = .running f :=
    fun he => (he.ext.coro c (hs.tidy.fresh.lt_of_status (by simp [hst]))).status.trans hst
  -- `await_suspend`, from the state `sm` in which the awaitable is bound and not ready
  have hsuspends : ∀ {sm s1}, (∀ n, Edits none n nn s sm) →
      Edits s.current sm.nextToken nn sm s1 → Suspends sm s1 →
      History sm ∧ History s1 ∧ (s1.coros c).status = .running f := by
    intro sm s1 hm he hsus
    have hsm := hs.edits (by simp) (hm sm.nextToken)
    have h1 := h.edits hs (hm _) (Nat.le_refl _)
    refine ⟨h1, h1.suspends hsm (fun c' hc' => ?_) he (Nat.le_refl _) hsus, ?_⟩
    · rw [(hm 0).ext.current.symm] at hc'
      exact hsm.started.current c' hc'
    · rw [hsus.coro c]
      exact hrun (hm _)
  cases hd with
  | goes s1 s' g he hg =>
      exact (h.edits hs (he _) (Nat.le_refl _)).continues (hrun (he _)) hg (by simp)
  | result a k s1 target r hact he hset =>
      have h1 := h.edits hs (he _) (Nat.le_refl _)
      refine h1.continues (hrun (he _)) (.deliver s1 c target k r) fun o ho => ?_
      obtain rfl := List.mem_singleton.mp ho
      refine ⟨target, r, s1.now, rfl, fun q hq => ?_⟩
      obtain ⟨⟨p, hp, rfl⟩, hor⟩ := hset q hq
      obtain ⟨hlt, hno⟩ := hsound a k hact p hp
      have hlt1 := Nat.lt_of_lt_of_le hlt (he 0).ext.nextCoro
      rcases hor with henv | ⟨hb, hcomp, hval⟩
      · exact ⟨hlt1, by simp [henv], by simp [henv]⟩
      · refine ⟨hlt1, by simp [hb.2], fun _ _ => ?_⟩
        obtain ⟨r', n, hr, hv⟩ := h1.ended.ended p.coro ⟨hb.2, hcomp⟩
        cases r' with
        | error e =>
            rw [(he 0).quietly.returnedAs] at hr
            exact absurd (by simp [hr]) (hno e n)
        | ok v => exact ⟨n, by rw [hr, hval, hv v rfl]⟩
  | throws a k sm s1 e hact hthrow hm he hsus =>
      obtain ⟨-, h2, hst1⟩ := hsuspends hm he hsus
      exact h2.continues hst1 (.deliver s1 c none k (.error e)) (by simp)
  | moved o k r hact hr =>
      refine h.continues hst (.moved s c o _ _ r) fun ob hob => ?_
      obtain rfl := List.mem_singleton.mp hob
      refine ⟨_, r, s.now, rfl, fun q hq => ?_⟩
      obtain rfl := Option.some.inj hq
      cases ht : (s.objects o).2 with
      | none => unfold State.takeObject at hr; rw [ht] at hr; cases hr
      | some t =>
          have hb := (h.stored o t ht).2.1
          exact ⟨hb.1, by simp [hb.2], fun _ hu =>
            h.stored.outcome h.ended ht (htake o k hact t ht) hu hr⟩
  | suspends a a' k sm s1 hact hm he hsus htkn hlt hcr hco =>
      obtain ⟨h1, h2, hst1⟩ := hsuspends hm he hsus
      have hg := Goes.suspend s1 c a' k
      have hret := (hg.logs.control (Awaitable.waiting_control a')).1
      refine ⟨h2.begun.goes hst1 hg (by simp) (Awaitable.waiting_later a'),
        h2.ended.update hret hg.coros (by simp [hst1]) (by simp),
        h2.stored.update hg.objects hg.quiet.nextToken hg.nextCoro hg.coros
          (fun t => by rw [hg.quiet.tokens]) hret (by simp),
        h2.awaited.goes hst1 hg (Awaitable.waiting_control a') ?_ fun w c' t lat n hw => ?_,
        h2.answered.update hg.logs hg.nextCoro hg.coros hret fun w q r n hw => ?_⟩
      · intro p t k' hst'
        cases hst'
        exact ⟨s1.now, List.mem_singleton.mpr rfl⟩
      · unfold Awaitable.waiting at hw
        split at hw
        · cases List.mem_singleton.mp hw
          obtain ⟨rfl, hb, -, rfl⟩ := hco _ _ rfl
          rw [hcur]
          exact registers (h1.awaited.fresh _ (Nat.le_refl _)) hb
        · cases hw
      · unfold Awaitable.waiting at hw
        split at hw <;> simp at hw
  | returns v hact hv hnull =>
      obtain ⟨gone, own, ho⟩ := hs.owned
      exact h.closes hs hst (closes_returns hv (ho.completionNodup c))
  | fails e hact hnull =>
      obtain ⟨gone, own, ho⟩ := hs.owned
      exact h.closes hs hst (closes_fails e (ho.completionNodup c))

theorem keep (h : History s) (htr : s'.trace = s.trace) (htok : s'.tokens = s.tokens)
    (hq : s'.queue = s.queue) (hco : s'.coros = s.coros) (hn : s'.nextCoro = s.nextCoro)
    (hnt : s'.nextToken = s.nextToken) (hex : s'.executed = s.executed)
    (hobj : s'.objects = s.objects) : History s' := by
  have hret : ∀ c, s'.returnedAs c = s.returnedAs c := fun c => congrArg (List.filterMap _) htr
  refine ⟨h.begun.keep (fun c => congrArg (List.filterMap _) htr)
      (fun c => congrArg (List.filterMap _) htr) (fun c => by rw [hco]) (fun c _ => by simp [hco])
      (fun c t n hp => ⟨hq ▸ hp.pending, by rw [htok]⟩) (fun t ht => hex ▸ ht),
    h.ended.keep hret (fun c => by unfold State.Done; rw [hco])
      fun c _ => returnValue_congr (by rw [hco]) (by rw [hco]), ?_, ?_,
    h.answered.keep (fun w c r n hm => .inl (htr ▸ hm)) hn.ge
      (fun c _ _ => by rw [hco]; exact ⟨rfl, rfl⟩) fun c _ _ => hret c⟩
  · refine h.stored.keep (.of_eq hobj) hnt.ge (fun c hb => ⟨hn ▸ hb.1, by rw [hco]; exact hb.2⟩)
      (fun c _ => by rw [hco]) fun c t _ _ _ hcarry => ?_
    cases hcarry with
    | held mem inc eptr => exact .held (by rwa [hco]) (by rwa [hco]) (by rwa [htok])
    | released r n free ret eptr =>
        exact .released r n (by rwa [hco]) ((hret c).trans ret) (by rwa [htok])
  refine ⟨fun t ht => ?_, fun w p t k hst => ?_, fun w c t lat n hm => ?_⟩
  · exact (congrArg (List.filterMap _) htr).trans (h.awaited.fresh t (hnt ▸ ht))
  · rw [hco] at hst
    rw [htr]
    exact h.awaited.listed w p t k hst
  · rw [htr] at hm
    obtain ⟨hb, hw⟩ := h.awaited.waits w c t lat n hm
    refine ⟨⟨hn ▸ hb.1, by rw [hco]; exact hb.2⟩, fun hu => ?_⟩
    rw [hco] at hu
    exact (hw hu).keep (fun _ => by rw [hco]) (fun _ ht => ⟨by rwa [hco], by rw [htok]⟩)
      (fun _ ht => ⟨hq ▸ ht, by rw [htok]⟩) (hret c) (congrArg (List.filterMap _) htr)
      (fun ht => hex ▸ ht) fun r m hr => htr ▸ hr

theorem stepped {t : TokenId} (h : History s) (hs : SingleBut s.Past s) (ht : t ∈ s.queue)
    (hnow : (s.pop t).now = (s.tokens t).time) (hd : Did.Step t s s') : History s' := by
  cases hd with
  | passes hp =>
      obtain ⟨os, hlog, hos⟩ := hp.logs
      obtain ⟨hret, -⟩ := hlog.control fun o ho => by obtain ⟨e, n, rfl⟩ := hos o ho; trivial
      exact ⟨h.begun.passes hs.sound hp,
        h.ended.keep hret (fun c => by unfold State.Done; rw [hp.coros])
          fun c _ => returnValue_congr (by rw [hp.coros]) (by rw [hp.coros]),
        h.stored.passes hs.sound hp hret, h.awaited.passes hs.sound hp, h.answered.passes hp⟩
  | starts c f hst he =>
      have hret := (he.logs.control (by simp [Obs.Control])).1
      exact ⟨h.begun.starts hs ht hnow hst he,
        h.ended.update hret he.coros (by simp [hst]) (by simp),
        h.stored.update he.objects he.nextToken he.nextCoro he.coros (fun u => by rw [he.tokens])
          hret (by simp),
        h.awaited.starts hs.sound ht hst he,
        h.answered.update he.logs he.nextCoro he.coros hret (by simp)⟩
  | resumes c a k r hst hr he =>
      have hret : ∀ c', s'.returnedAs c' = s.returnedAs c' := fun c' => by
        rw [he.logs.returnedAs]; exact List.append_nil _
      have htkn : a.token = some t := by
        have h1 := hs.answers ht he.handler he.coroData (by simp [hst])
        unfold State.Answers at h1
        rwa [hst] at h1
      refine ⟨h.begun.resumes hst he (by simp [Obs.Later]),
        h.ended.update hret he.coros (by simp [hst]) (by simp),
        h.stored.update he.objects he.nextToken he.nextCoro he.coros (fun u => by rw [he.tokens])
          hret (by simp),
        h.awaited.resumes hs.sound h.ended ht hnow hst htkn hr he,
        h.answered.update he.logs he.nextCoro he.coros hret fun w q r' n hm => ?_⟩
      have hm : .result w (some q) r' n = (.result c a.target r s'.now : Obs P.Value P.Error) := by
        simpa using hm
      injection hm with hw hq hr' hn
      obtain ⟨p, tkn, rfl, rfl⟩ := target_coroutine hq.symm
      obtain rfl : tkn = some t := htkn
      obtain ⟨m, hm⟩ := h.awaited.listed c p t k hst
      have hb := (h.awaited.waits c p.coro t p.retLatency m hm).1
      refine ⟨hb.1, by simp [hb.2], fun _ hu => ?_⟩
      obtain ⟨r0, n0, hr0, -, -, hval⟩ := h.awaited.outcome hs.sound h.ended ht hst hu
      exact ⟨n0, by rw [hr0, hr', ← hr, hval]⟩

theorem init (m : P.Memory) : History (State.init m : State P) :=
  ⟨.init m, .init m, .init m, .init m, .init m⟩

end History

/-- The steps of a run in which outcomes are delivered: the clock does not pass a pending token,
no failed `co_await` leaves a handler that can fire, and whatever a `co_await` finds at once
is the outcome of its process. -/
structure Delivers (s : State P) (l : Label P) : Prop where
  cautious : Cautious s l
  timely : Timely s l
  kept : l ≠ .reset
  sound : ∀ c f a k, l = .exec c → (s.coros c).status = .running f → s.next f = .await a k →
    s.AwaitsSound a
  takes : ∀ c f o k, l = .exec c → (s.coros c).status = .running f → s.next f = .move o k →
    s.TakesSound o

theorem Step.history {l : Label P} (hstep : Step s l s') (hl : Delivers s l)
    (hs : SingleBut s.Past s) (hc : Causal s) (h : History s) : History s' := by
  obtain ⟨gone, own, ho⟩ := hs.sound.owned
  have hsafe := hl.timely.2
  cases hstep with
  | call f o =>
      have he : Edits none (s.newCoro (.user (P.start f)) o).nextToken False s _ :=
        .single (.newCoro _ o (.user f) (by simp))
      exact h.edits hs.sound he (Nat.le_refl _)
  | bind a =>
      have he : Edits none (s.bind a).nextToken False s (s.bind a) :=
        bind_call_edits hs.sound.tidy a (by simp)
      exact h.edits hs.sound he (Nat.le_refl _)
  | elsewhere c henv =>
      have hdone : ∀ c', (s.setCoro c { s.coros c with env := .elsewhere }).Done c' ↔
          s.Done c' := by
        intro c'
        unfold State.Done
        by_cases hc' : c' = c
        · subst hc'; simp [State.setCoro, henv]
        · simp [State.setCoro, Function.update_of_ne hc']
      refine ⟨h.begun.elsewhere henv, h.ended.keep (fun _ => rfl) hdone fun c' hd => ?_,
        h.stored.elsewhere henv, h.awaited.elsewhere henv, h.answered.elsewhere henv⟩
      have hc' : c' ≠ c := by
        rintro rfl
        have h1 := hd.1
        rw [henv] at h1
        cases h1
      exact returnValue_congr (by simp [State.setCoro, Function.update_of_ne hc'])
        (by simp [State.setCoro, Function.update_of_ne hc'])
  | step t _ htop hst =>
      have hnow := (hc.pop htop.1 (ho.least_time hsafe htop)).2
      exact h.stepped hs htop.1 hnow (step_stepped hst).did
  | advance deadline => exact h.keep rfl rfl rfl rfl rfl rfl rfl rfl
  | exec c _ hex =>
      obtain ⟨f, hst, hd⟩ := exec_did hs.sound.tidy hex fun _ _ (hf : False) => hf.elim
      have h1 : History (s.ran f) := h.keep rfl rfl rfl rfl rfl rfl rfl rfl
      have h2 : Sound (s.ran f) := hs.sound.quiet (.of_coros rfl) rfl rfl rfl
        hs.sound.started.current
      exact h1.did h2 (hs.running c f hst) hst (fun a k hact => hl.sound c f a k rfl hst hact)
        (fun o k hact => hl.takes c f o k rfl hst hact) hd
  | reset => exact absurd rfl hl.kept

theorem Reachable.history {C : State P → Label P → Prop} (h : Reachable C s)
    (hC : ∀ s l, C s l → Delivers s l) : History s := by
  obtain ⟨m, h⟩ := h
  induction h with
  | refl => exact .init m
  | tail hr hstep ih =>
      obtain ⟨l, hl, hstep⟩ := hstep
      have hd := hC _ l hl
      have hr : Reachable C _ := ⟨m, hr⟩
      exact hstep.history hd (hr.mono fun s l hl => (hC s l hl).cautious).cautious
        (hr.causal fun s l hl => (hC s l hl).timely) ih

/-- In every run in which no failed process is awaited, a shared process begins once, at
the time it was bound plus its latency; each of its waiters has one token, which resumes it
once, at the time the process ends plus its return latency; whoever is suspended in one of
its handles is such a waiter; and every `co_await` of a handle yields its outcome. -/
theorem outcome_delivery (h : Reachable Delivers s) {c : CoroId}
    (hc : (s.coros c).env = .here) (hu : (s.coros c).unique = false) :
    s.Begins c ∧
    (∀ w t lat n, .waiting w c t lat n ∈ s.trace → s.Waits w c t lat) ∧
    (∀ w p t k, (s.coros w).status = .suspended (.coroutine p (some t)) k → p.coro = c →
      ∃ n, .waiting w c t p.retLatency n ∈ s.trace) ∧
    (∀ w r n, .result w (some c) r n ∈ s.trace → ∃ m, s.returnedAs c = [(r, m)]) := by
  have hist := h.history fun _ _ hl => hl
  refine ⟨hist.begun.bound c hc, fun w t lat n hm => (hist.awaited.waits w c t lat n hm).2 hu,
    ?_, fun w r n hm => (hist.answered w c r n hm).2.2 hc hu⟩
  rintro w p t k hst rfl
  exact hist.awaited.listed w p t k hst

namespace relay

/-- The transitions that deliver, evaluated. -/
def delivers (s : State relay) : Label relay → Bool
  | .bind (.call _ o) => decide (0 ≤ o.latency ∧ 0 ≤ o.retLatency)
  | .step _ => s.current.isNone && decide s.Heaped
  | .exec c =>
    s.checks (fun f a => !(s.ran f).suspendThrows c a) c &&
      match (s.coros c).status with
      | .running (.user .joins) => decide (1 < s.nextCoro) && (s.returnedAs 1).isEmpty
      | .running (.user _) => true
      | _ => false
  | _ => false

theorem delivers_spec (s : State relay) (l : Label relay) (h : delivers s l = true) :
    Delivers s l := by
  cases l with
  | bind a =>
      cases a with
      | call f o =>
          have hnn : 0 ≤ o.latency ∧ 0 ≤ o.retLatency := of_decide_eq_true h
          exact ⟨trivial, ⟨hnn, trivial⟩, by simp, by simp, by simp⟩
      | _ => cases h
  | step t =>
      obtain ⟨h1, h2⟩ := Bool.and_eq_true_iff.mp h
      have hheap : s.Heaped := of_decide_eq_true h2
      exact ⟨Option.isNone_iff_eq_none.mp h1, ⟨trivial, .inl hheap⟩, by simp, by simp, by simp⟩
  | exec c =>
      obtain ⟨b, hst, hthrow, hjoins⟩ : ∃ b, (s.coros c).status = .running (.user b) ∧
          s.checks (fun f a => !(s.ran f).suspendThrows c a) c = true ∧
          (b = Relay.joins → 1 < s.nextCoro ∧ s.returnedAs 1 = []) := by
        obtain ⟨hthrow, h⟩ := Bool.and_eq_true_iff.mp h
        split at h
        · next hst =>
            obtain ⟨h1, h2⟩ := Bool.and_eq_true_iff.mp h
            exact ⟨_, hst, hthrow, fun _ => ⟨of_decide_eq_true h1, List.isEmpty_iff.mp h2⟩⟩
        · next b hne hst => exact ⟨b, hst, hthrow, fun hb => (hne hb).elim⟩
        · cases h
      refine ⟨fun f a k hf hact ht => ?_, ⟨fun f hf => ?_, trivial⟩, by simp, ?_, ?_⟩
      · have h1 := State.checks_await hthrow hf hact
        simp [ht] at h1
      · obtain rfl := Status.running.inj (hst.symm.trans hf)
        exact relay.nonNeg s b
      · rintro _ f a k ⟨⟩ hf hact p hp
        obtain rfl := Status.running.inj (hst.symm.trans hf)
        cases b with
        | joins =>
            cases hact
            cases hp
            obtain ⟨h1, h2⟩ := hjoins rfl
            exact ⟨h1, by simp [h2]⟩
        | polls | listens | works => cases hact; cases hp
        | ends => cases hact
      · rintro _ f o k ⟨⟩ hf hact
        obtain rfl := Status.running.inj (hst.symm.trans hf)
        cases b <;> cases hact
  | call | elsewhere | advance | reset => cases h

end relay

theorem outcome_delivery_relay :
    (relay.joined relay.delivers).Waits 2 1 9 0 ∧
      ∃ m, (relay.joined relay.delivers).returnedAs 1 = [(.ok .unit, m)] := by
  have henv : ((relay.joined relay.delivers).coros 1).env = .here := by decide +kernel
  have h := outcome_delivery (relay.joined_reachable relay.delivers_spec) henv (by decide +kernel)
  exact ⟨h.2.1 2 9 0 0 (by decide +kernel), h.2.2.2 2 (.ok .unit) 5 (by decide +kernel)⟩

/-- A process that fails, and one that awaits it afterwards. -/
def lateAwaiter : Program where
  User := Bool
  Body := Option Bool
  Memory := Unit
  Value := Unit
  Error := Unit
  start := some
  next b m _ := (m, match b with
    | some false => .throw (.user ())
    | some true => .await (.coroutine { coro := 0 } none) fun _ => none
    | none => .coReturn none)

namespace lateAwaiter

/-- Process 0 is bound. -/
def bound : State lateAwaiter := (State.init ()).bind (.call false {})

def started : State lateAwaiter :=
  ({ bound.pop 0 with current := some 0 }.setStatus 0 (.running (.user (some false)))).log
    (.started 0 0)

/-- Process 0 has failed, and `step()` has rethrown its exception. -/
def failed : State lateAwaiter :=
  (((started.propagateException 0 (.user ())).doReturn 0 (.error (.user ()))).pop 1).log
    (.raised (.user ()) 0)

/-- Process 1 is bound and begins. -/
def awaiting : State lateAwaiter :=
  ({ (failed.bind (.call true {})).pop 2 with current := some 1 }.setStatus 1
    (.running (.user (some true)))).log (.started 1 0)

/-- Process 1 has awaited process 0. -/
def answered : State lateAwaiter := awaiting.coAwait 1 (.coroutine { coro := 0 } none)
  fun _ => .user none

theorem answered_reachable : Reachable (fun s l => Sequential s l ∧ Timely s l) answered := by
  have hlone : ∀ {s : State lateAwaiter} {t : TokenId}, s.current = none → s.queue = [t] →
      Sequential s (.step t) ∧ Timely s (.step t) := fun hcur hq =>
    ⟨hcur, trivial, .inl (.inl (by simp [hq]))⟩
  have hbind : ∀ (s : State lateAwaiter) (b : Bool),
      Sequential s (.bind (.call b {})) ∧ Timely s (.bind (.call b {})) := fun s b =>
    ⟨trivial, by simp [Label.NonNeg, Awaitable.NonNeg], trivial⟩
  have h1 : Reachable (fun s l => Sequential s l ∧ Timely s l) bound :=
    (Reachable.init ()).next (hbind _ false) (.bind _ _ rfl (by decide))
  have h2 : Reachable (fun s l => Sequential s l ∧ Timely s l) started :=
    h1.next (l := .step 0) (hlone rfl rfl) (.step _ _ _ (State.isTop_singleton rfl) rfl (by decide))
  have h3 : Reachable (fun s l => Sequential s l ∧ Timely s l)
      ((started.propagateException 0 (.user ())).doReturn 0 (.error (.user ()))) := by
    refine h2.next (l := .exec 0) ⟨fun f a k hf hact => ?_, fun f hf => ?_, trivial⟩
      (.exec _ _ _ rfl (by decide))
    · cases hf; cases hact
    · cases hf; trivial
  have h4 : Reachable (fun s l => Sequential s l ∧ Timely s l) failed :=
    h3.next (l := .step 1) (hlone rfl rfl) (.step _ _ _ (State.isTop_singleton rfl) rfl (by decide))
  have h5 : Reachable (fun s l => Sequential s l ∧ Timely s l) awaiting :=
    (h4.next (hbind _ true) (.bind _ _ rfl (by decide))).next (l := .step 2) (hlone rfl rfl)
      (.step _ _ _ (State.isTop_singleton rfl) rfl (by decide))
  refine h5.next (l := .exec 1) ⟨fun f a k hf hact => ?_, fun f hf => ?_, trivial⟩
    (.exec _ _ _ rfl (by decide))
  · cases hf; cases hact; rfl
  · cases hf; exact Int.le_refl 0

end lateAwaiter

/-- A `co_await` of a process that has failed completes normally. -/
theorem failed_process_awaited :
    ¬ ∀ (P : Program) (s : State P), Reachable (fun s l => Sequential s l ∧ Timely s l) s →
      ∀ c, (s.coros c).env = .here → (s.coros c).unique = false →
        ∀ w r n, .result w (some c) r n ∈ s.trace → ∃ m, s.returnedAs c = [(r, m)] := by
  intro h
  have htr : lateAwaiter.answered.trace = [.bound 0 0, .started 0 0,
      .returned 0 (.error (.user ())) 0, .raised (.user ()) 0, .bound 1 0, .started 1 0,
      .result 1 (some 0) (.ok .unit) 0] := rfl
  have hres : .result 1 (some 0) (.ok .unit) 0 ∈ lateAwaiter.answered.trace := by
    rw [htr]; simp
  obtain ⟨m, hm⟩ := h lateAwaiter lateAwaiter.answered lateAwaiter.answered_reachable 0 rfl rfl
    1 (.ok .unit) 0 hres
  have hret : lateAwaiter.answered.returnedAs 0 = [(.error (.user ()), 0)] := rfl
  rw [hret] at hm
  cases hm

end Cxxdes
