-- SUMMARY: A process ends once, and the completion tokens that handle objects hold get its outcome.
import Cxxdes.Run.Beginning
import Cxxdes.Run.Current

/-!
# Ends

`Ended` says what the history of a run tells about the end of each process. A handle object
that is awaited by reference keeps its completion token after the `co_await`: `Stored` says
that such a token carries the outcome of the process once it has ended.
-/

namespace Cxxdes

variable {P : Program} {s s' : State P}

/-! ### The end of a process -/

/-- Process `c` has ended in this environment. -/
def State.Done (s : State P) (c : CoroId) : Prop :=
  (s.coros c).env = .here ∧ (s.coros c).complete = true

/-- A process that has ended has ended once, and its value is stored. -/
structure Ended (s : State P) : Prop where
  silent : ∀ c, ¬ s.Done c → s.returnedAs c = []
  ended : ∀ c, s.Done c → ∃ r n, s.returnedAs c = [(r, n)] ∧
    ∀ v, r = .ok v → s.returnValue c = .ok v

theorem complete_iff {c : CoroId} :
    (s.coros c).complete = true ↔ (s.coros c).status = .finished := by
  unfold CoroData.complete
  cases (s.coros c).status <;> simp

theorem not_done_of_status {c : CoroId} (h : (s.coros c).status ≠ .finished) : ¬ s.Done c :=
  fun hd => h (complete_iff.mp hd.2)

theorem returnValue_congr {c : CoroId} (hvoid : (s'.coros c).void = (s.coros c).void)
    (hval : (s'.coros c).returnValue = (s.coros c).returnValue) :
    s'.returnValue c = s.returnValue c := by
  unfold State.returnValue
  rw [hvoid, hval]

/-- No process ends while another awaits. -/
theorem Edit.done_old {cd : Option CoroId} {n : TokenId} {nn : Prop} (he : Edit cd n nn s s')
    (hw : Wired s) {c : CoroId} (hd : s'.Done c) : s.Done c := by
  cases he with
  | newCoro f o hf =>
      by_cases hc : c = s.nextCoro
      · subst hc
        have h1 := hd.2
        simp [State.newCoro, CoroData.called, CoroData.complete] at h1
      · have h1 : (s.newCoro f o).coros c = s.coros c := Function.update_of_ne hc _ _
        unfold State.Done at hd ⊢
        rwa [h1] at hd
  | startCoro c0 priority henv =>
      by_cases hc : c = c0
      · subst hc
        obtain ⟨f, hf⟩ := (hw.unbound c henv).2
        have h1 := hd.2
        simp [State.startCoro, State.log, State.scheduleToken, State.newToken, State.setCoro,
          CoroData.started, CoroData.complete, hf] at h1
      · have h1 : (s.startCoro c0 priority).coros c = s.coros c := Function.update_of_ne hc _ _
        unfold State.Done at hd ⊢
        rwa [h1] at hd
  | newCompletion p cd' =>
      by_cases hc : c = p.coro
      · subst hc
        unfold State.Done at hd ⊢
        simpa [State.newCompletion, State.setCoro, CoroData.completionToken,
          CoroData.complete] using hd
      · have h1 : (s.newCompletion p cd').coros c = s.coros c := Function.update_of_ne hc _ _
        unfold State.Done at hd ⊢
        rwa [h1] at hd
  | wake evt =>
      unfold State.Done at hd ⊢
      simpa [State.wake] using hd
  | timeout | newWaiter | newHandler | install | setObject => exact hd

theorem Edits.done_old {cd : Option CoroId} {n : TokenId} {nn : Prop} (hs : Sound s)
    (hcd : ∀ c, cd = some c → (s.coros c).env = .here) (he : Edits cd n nn s s') {c : CoroId}
    (hd : s'.Done c) : s.Done c := by
  induction he with
  | refl => exact hd
  | tail he he1 ih => exact ih (he1.done_old (hs.edits hcd he).wired hd)

/-- What awaiting does, as far as outcomes are concerned. -/
structure Grown (s s' : State P) : Prop where
  ext : ∃ n, s.nextToken ≤ n ∧ Ext n s s'
  quietly : Quietly s s'
  done : ∀ c, s'.Done c ↔ s.Done c
  suspended : ∀ c a k, (s'.coros c).status = .suspended a k → (s.coros c).status = .suspended a k

theorem Edits.grown {cd : Option CoroId} {n : TokenId} {nn : Prop} (hs : Sound s)
    (hcd : ∀ c, cd = some c → (s.coros c).env = .here) (he : Edits cd n nn s s')
    (hn : s.nextToken ≤ n) : Grown s s' where
  ext := ⟨n, hn, he.ext⟩
  quietly := he.quietly
  done c := by
    refine ⟨he.done_old hs hcd, fun hd => ?_⟩
    have hlt := hs.tidy.fresh.lt (by simp [hd.1] : (s.coros c).env ≠ .elsewhere)
    exact ⟨(he.ext.boundHere ⟨hlt, hd.1⟩).2, (he.ext.complete hlt).trans hd.2⟩
  suspended _ _ _ hst := he.status_old (by simp) hst

namespace Ended

theorem keep (h : Ended s) (hret : ∀ c, s'.returnedAs c = s.returnedAs c)
    (hdone : ∀ c, s'.Done c ↔ s.Done c)
    (hval : ∀ c, s.Done c → s'.returnValue c = s.returnValue c) : Ended s' where
  silent c hc := (hret c).trans (h.silent c fun hd => hc ((hdone c).mpr hd))
  ended c hc := by
    obtain ⟨r, n, hr, hv⟩ := h.ended c ((hdone c).mp hc)
    exact ⟨r, n, (hret c).trans hr,
      fun v hrv => (hval c ((hdone c).mp hc)).trans (hv v hrv)⟩

theorem init (m : P.Memory) : Ended (State.init m : State P) where
  silent _ _ := rfl
  ended _ h := by cases h.1

theorem grown (h : Ended s) (hf : s.Fresh) (hg : Grown s s') : Ended s' := by
  obtain ⟨n, -, hx⟩ := hg.ext
  refine h.keep hg.quietly.returnedAs hg.done fun c hd => ?_
  have h1 := hx.coro c (hf.lt (by simp [hd.1]))
  exact returnValue_congr h1.void h1.returnValue

/-- Only the status of a process that has not ended changes. -/
theorem update {c : CoroId} {st : Status P} (h : Ended s)
    (hret : ∀ c, s'.returnedAs c = s.returnedAs c)
    (hco : s'.coros = Function.update s.coros c { s.coros c with status := st })
    (hold : (s.coros c).status ≠ .finished) (hst : st ≠ .finished) : Ended s' := by
  have hself : s'.coros c = { s.coros c with status := st } := by
    rw [hco, Function.update_self]
  have hother : ∀ c' ≠ c, s'.coros c' = s.coros c' := fun c' hc => by
    rw [hco, Function.update_of_ne hc]
  refine h.keep hret (fun c' => ?_) fun c' hd => ?_
  · by_cases hc : c' = c
    · subst hc
      exact iff_of_false (not_done_of_status (by rw [hself]; exact hst)) (not_done_of_status hold)
    · unfold State.Done
      rw [hother c' hc]
  · have hc : c' ≠ c := by rintro rfl; exact not_done_of_status hold hd
    exact returnValue_congr (by rw [hother c' hc]) (by rw [hother c' hc])

theorem closes {c : CoroId} {f : P.Frame} {r : Result P.Value P.Error} (h : Ended s)
    (hs : Sound s) (hrun : (s.coros c).status = .running f) (hc : Closes c r s s') :
    Ended s' := by
  have hdone : ∀ c' ≠ c, (s'.Done c' ↔ s.Done c') ∧ s'.returnedAs c' = s.returnedAs c' ∧
      s'.returnValue c' = s.returnValue c' := by
    intro c' hc'
    have h1 := hc.coro c' hc'
    refine ⟨by unfold State.Done; rw [h1], ?_, returnValue_congr (by rw [h1]) (by rw [h1])⟩
    rw [hc.logs.returnedAs]
    simp [Obs.returnedAs, hc'.symm]
  have hself : s'.Done c := by
    unfold State.Done
    rw [hc.self]
    exact ⟨hs.started.env_of_running hrun, rfl⟩
  refine ⟨fun c' hnd => ?_, fun c' hd => ?_⟩
  · have hc' : c' ≠ c := by rintro rfl; exact hnd hself
    obtain ⟨h1, h2, -⟩ := hdone c' hc'
    exact h2.trans (h.silent c' fun hd => hnd (h1.mpr hd))
  · by_cases hc' : c' = c
    · subst hc'
      refine ⟨r, s.now, ?_, hc.value⟩
      rw [hc.logs.returnedAs, h.silent c' (not_done_of_status (by simp [hrun]))]
      simp [Obs.returnedAs]
    · obtain ⟨h1, h2, h3⟩ := hdone c' hc'
      obtain ⟨r', n, hr, hv⟩ := h.ended c' (h1.mp hd)
      exact ⟨r', n, h2.trans hr, fun v hrv => h3.trans (hv v hrv)⟩

end Ended

/-- `await_resume` of a handle yields the outcome that its token and the process have. -/
theorem awaitResume_outcome {p : Handle} {t : TokenId} {r : Result P.Value P.Error}
    (heptr : (s.tokens t).eptr = outcomeEptr r)
    (hval : ∀ v, r = .ok v → s.returnValue p.coro = .ok v) :
    (awaitResume (.coroutine p (some t)) s).1 = r := by
  cases r with
  | error e =>
      have hchk : s.checkToken (some t) = .error e := by simp [State.checkToken, heptr, outcomeEptr]
      simp [awaitResume, awaitResumeTag, hchk]
  | ok v =>
      have hchk : s.checkToken (some t) = .ok () := by simp [State.checkToken, heptr, outcomeEptr]
      simp [awaitResume, awaitResumeTag, hchk, hval v rfl]

/-! ### Handle objects -/

/-- The completion token `t` that a handle object of process `c` holds: `c` holds it too, or
has ended with the outcome that `t` carries. -/
inductive State.Carries (s : State P) (c : CoroId) (t : TokenId) : Prop where
  | held (mem : t ∈ (s.coros c).completionTokens) (inc : (s.coros c).complete = false)
      (eptr : (s.tokens t).eptr = none)
  | released (r : Result P.Value P.Error) (n : Int)
      (free : ∀ c', t ∉ (s.coros c').completionTokens) (ret : s.returnedAs c = [(r, n)])
      (eptr : (s.tokens t).eptr = outcomeEptr r)

/-- The completion tokens of the handle objects carry the outcomes of the processes. -/
def Stored (s : State P) : Prop :=
  ∀ o t, (s.objects o).2 = some t → t < s.nextToken ∧ s.BoundHere (s.objects o).1.coro ∧
    ((s.coros (s.objects o).1.coro).unique = false → s.Carries (s.objects o).1.coro t)

namespace Stored

/-- What the completion tokens of handle objects depend on. -/
theorem keep (h : Stored s) (hobj : s.Holding s') (hn : s.nextToken ≤ s'.nextToken)
    (hbound : ∀ c, s.BoundHere c → s'.BoundHere c)
    (huniq : ∀ c, s.BoundHere c → (s'.coros c).unique = (s.coros c).unique)
    (hcarry : ∀ c t, t < s.nextToken → s.BoundHere c → (s.coros c).unique = false →
      s.Carries c t → s'.Carries c t) : Stored s' := by
  intro o t ht
  have ho := hobj o t ht
  rw [ho] at ht ⊢
  obtain ⟨hlt, hb, hc⟩ := h o t ht
  refine ⟨Nat.lt_of_lt_of_le hlt hn, hbound _ hb, fun hu => ?_⟩
  rw [huniq _ hb] at hu
  exact hcarry _ t hlt hb hu (hc hu)

theorem init (m : P.Memory) : Stored (State.init m : State P) := fun _ _ h => by cases h

end Stored

/-- No edit writes the exception of a token that exists. -/
theorem Edit.eptr {cd : Option CoroId} {n : TokenId} {nn : Prop} (he : Edit cd n nn s s')
    {t : TokenId} (ht : t < s.nextToken) : (s'.tokens t).eptr = (s.tokens t).eptr := by
  have hne : t ≠ s.nextToken := Nat.ne_of_lt ht
  cases he with
  | newCoro | setObject => rfl
  | install u i =>
      by_cases hu : t = u
      · subst hu; simp [State.install, State.setToken]
      · simp [State.install, State.setToken, Function.update_of_ne hu]
  | wake evt => simpa [State.wake] using (s.releaseAll_fields (s.events evt) t).2.2
  | startCoro | newCompletion | timeout | newWaiter | newHandler =>
      simp [State.startCoro, State.newCompletion, State.newWaiter, State.newHandler,
        State.scheduleToken, State.newToken, State.setCoro, State.log, Function.update_of_ne hne]

/-- A handle object gets a completion token that its process holds. -/
theorem Edit.holding {cd : Option CoroId} {n : TokenId} {nn : Prop} (he : Edit cd n nn s s')
    {o : HandleId} {t : TokenId} (ht : (s'.objects o).2 = some t) :
    s'.objects o = s.objects o ∨ (t ∈ (s.coros (s.objects o).1.coro).completionTokens ∧
      (s.coros (s.objects o).1.coro).env = .here ∧
      (s.coros (s.objects o).1.coro).complete = false ∧ (s.tokens t).eptr = none) := by
  cases he with
  | setObject i tkn htkn =>
      by_cases hi : o = i
      · subst hi
        simp only [State.setObject, Function.update_self] at ht
        exact .inr (htkn t ht)
      · exact .inl (Function.update_of_ne hi _ _)
  | wake evt => exact .inl (by simp [State.wake])
  | newCoro | startCoro | newCompletion | timeout | newWaiter | newHandler | install =>
      exact .inl rfl

theorem Edit.carries {cd : Option CoroId} {n : TokenId} {nn : Prop} (he : Edit cd n nn s s')
    {c : CoroId} {t : TokenId} (ht : t < s.nextToken) (hb : s.BoundHere c)
    (hu : (s.coros c).unique = false) (h : s.Carries c t) : s'.Carries c t := by
  have hx := he.ext
  have hc := hx.coro c hb.1
  cases h with
  | held mem inc eptr =>
      exact .held (hc.shared hu t mem) ((hx.complete hb.1).trans inc) ((he.eptr ht).trans eptr)
  | released r m free ret eptr =>
      refine .released r m (fun c' hm => ?_) (((Edits.quietly (.single he)).returnedAs c).trans ret)
        ((he.eptr ht).trans eptr)
      rcases hx.completionOld c' t hm with h1 | h1
      · exact free c' h1
      · exact absurd ht (Nat.not_lt.mpr h1)

namespace Stored

theorem edit {cd : Option CoroId} {n : TokenId} {nn : Prop} (h : Stored s) (hs : Sound s)
    (he : Edit cd n nn s s') : Stored s' := by
  obtain ⟨gone, own, ho⟩ := hs.owned
  have hx := he.ext
  intro o t ht
  have hfst := hx.object o
  have hlt' : t < s.nextToken → t < s'.nextToken := fun h => Nat.lt_of_lt_of_le h hx.nextToken
  rcases he.holding ht with hold | ⟨hmem, henv, hinc, heptr⟩
  · rw [hold] at ht ⊢
    obtain ⟨hlt, hb, hc⟩ := h o t ht
    refine ⟨hlt' hlt, hx.boundHere hb, fun hu => ?_⟩
    rw [(hx.coro _ hb.1).unique] at hu
    exact he.carries hlt hb hu (hc hu)
  · have hlt : t < s.nextToken := ho.lt (by simp [ho.completion _ t hmem])
    have hb : s.BoundHere (s.objects o).1.coro := ⟨hs.tidy.fresh.lt (by simp [henv]), henv⟩
    rw [hfst]
    refine ⟨hlt' hlt, hx.boundHere hb, fun hu => ?_⟩
    rw [(hx.coro _ hb.1).unique] at hu
    exact he.carries hlt hb hu (.held hmem hinc heptr)

theorem edits {cd : Option CoroId} {n : TokenId} {nn : Prop} (h : Stored s) (hs : Sound s)
    (hcd : ∀ c, cd = some c → (s.coros c).env = .here) (he : Edits cd n nn s s') : Stored s' := by
  induction he with
  | refl => exact h
  | tail he he1 ih => exact ih.edit (hs.edits hcd he) he1

/-- Only the status of a process that has not ended changes. -/
theorem update {c : CoroId} {st : Status P} (h : Stored s) (hobj : s.Holding s')
    (hn : s'.nextToken = s.nextToken) (hnc : s'.nextCoro = s.nextCoro)
    (hco : s'.coros = Function.update s.coros c { s.coros c with status := st })
    (htok : ∀ t, (s'.tokens t).eptr = (s.tokens t).eptr)
    (hret : ∀ c, s'.returnedAs c = s.returnedAs c) (hst : st ≠ .finished) : Stored s' := by
  have hfields : ∀ c', (s'.coros c').env = (s.coros c').env ∧
      (s'.coros c').unique = (s.coros c').unique ∧
      (s'.coros c').completionTokens = (s.coros c').completionTokens ∧
      ((s.coros c').complete = false → (s'.coros c').complete = false) := fun c' => by
    rw [hco]
    by_cases hc : c' = c
    · subst hc
      rw [Function.update_self]
      refine ⟨rfl, rfl, rfl, fun _ => ?_⟩
      cases st with
      | finished => exact absurd rfl hst
      | initial | running | suspended => rfl
    · rw [Function.update_of_ne hc]
      exact ⟨rfl, rfl, rfl, id⟩
  refine h.keep hobj hn.ge (fun c' hb => ⟨hnc ▸ hb.1, (hfields c').1.trans hb.2⟩)
    (fun c' _ => (hfields c').2.1) fun c' t _ _ _ hcarry => ?_
  cases hcarry with
  | held mem inc eptr =>
      exact .held ((hfields c').2.2.1 ▸ mem) ((hfields c').2.2.2 inc) ((htok t).trans eptr)
  | released r n free ret eptr =>
      exact .released r n (fun d => (hfields d).2.2.1 ▸ free d) ((hret c').trans ret)
        ((htok t).trans eptr)

/-- A process ends: its outcome goes to the tokens it holds. -/
theorem closes {c : CoroId} {f : P.Frame} {r : Result P.Value P.Error} (h : Stored s)
    (hs : Sound s) (hend : Ended s) (hrun : (s.coros c).status = .running f)
    (hc : Closes c r s s') : Stored s' := by
  obtain ⟨gone, own, ho⟩ := hs.owned
  have hnone : s.returnedAs c = [] := hend.silent c (not_done_of_status (by simp [hrun]))
  have hret : ∀ c' ≠ c, s'.returnedAs c' = s.returnedAs c' := fun c' hc' => by
    rw [hc.logs.returnedAs]
    simp [Obs.returnedAs, hc'.symm]
  have hfields : ∀ c', (s'.coros c').env = (s.coros c').env ∧
      (s'.coros c').unique = (s.coros c').unique ∧
      ∀ t ∈ (s'.coros c').completionTokens, c' ≠ c ∧ t ∈ (s.coros c').completionTokens := by
    intro c'
    by_cases hc' : c' = c
    · subst hc'; rw [hc.self]; exact ⟨rfl, rfl, by simp⟩
    · rw [hc.coro c' hc']; exact ⟨rfl, rfl, fun t ht => ⟨hc', ht⟩⟩
  refine h.keep (.of_eq hc.objects) hc.nextToken.ge
    (fun c' hb => ⟨hc.nextCoro ▸ hb.1, (hfields c').1.trans hb.2⟩) (fun c' _ => (hfields c').2.1)
    fun c' t _ _ _ hcarry => ?_
  cases hcarry with
  | held mem inc eptr =>
      by_cases hc' : c' = c
      · subst hc'
        refine .released r s.now (fun d hd => ?_) ?_ (by rw [hc.released t mem eptr])
        · obtain ⟨hdc, hd⟩ := (hfields d).2.2 t hd
          have h1 := ho.completion d t hd
          rw [ho.completion c' t mem] at h1
          exact hdc (Owner.completion.inj h1).symm
        · rw [hc.logs.returnedAs, hnone]
          simp [Obs.returnedAs]
      · have htok : s'.tokens t = s.tokens t := hc.token t fun hd => by
          have h1 := ho.completion c' t mem
          rw [ho.completion c t hd] at h1
          exact hc' (Owner.completion.inj h1).symm
        refine .held ?_ ?_ (by rw [htok, eptr])
        · rwa [hc.coro c' hc']
        · rwa [hc.coro c' hc']
  | released r' n free ret eptr =>
      have hc' : c' ≠ c := by
        rintro rfl
        rw [hnone] at ret
        cases ret
      exact .released r' n (fun d hd => free d ((hfields d).2.2 t hd).2) ((hret c' hc').trans ret)
        (by rw [hc.token t (free c), eptr])

theorem passes {t : TokenId} (h : Stored s) (hs : Sound s) (hp : Passes t s s')
    (hret : ∀ c, s'.returnedAs c = s.returnedAs c) : Stored s' := by
  obtain ⟨gone, own, ho⟩ := hs.owned
  refine h.keep (.of_eq hp.objects) hp.nextToken.ge
    (fun c hb => ⟨hp.nextCoro ▸ hb.1, by rw [hp.coros]; exact hb.2⟩) (fun c _ => by rw [hp.coros])
    fun c u _ _ _ hcarry => ?_
  cases hcarry with
  | held mem inc eptr =>
      have htok : s'.tokens u = s.tokens u := hp.token u fun i hi => by
        have h1 := ho.output i u hi
        rw [ho.completion c u mem] at h1
        cases h1
      exact .held (by rwa [hp.coros]) (by rwa [hp.coros]) (by rw [htok, eptr])
  | released r n free ret eptr =>
      exact .released r n (by rwa [hp.coros]) ((hret c).trans ret) ((hp.eptr u).trans eptr)

theorem elsewhere {c : CoroId} (h : Stored s) (henv : (s.coros c).env = .unbound) :
    Stored (s.setCoro c { s.coros c with env := .elsewhere }) := by
  have hfields : ∀ c', ∃ env, (s.setCoro c { s.coros c with env := .elsewhere }).coros c' =
      { s.coros c' with env := env } ∧ ((s.coros c').env = .here → env = .here) := by
    intro c'
    by_cases hc' : c' = c
    · subst hc'; exact ⟨.elsewhere, Function.update_self .., by simp [henv]⟩
    · exact ⟨(s.coros c').env, Function.update_of_ne hc' .., id⟩
  refine h.keep (.of_eq rfl) (Nat.le_refl _) (fun c' hb => ?_) (fun c' _ => ?_)
    fun c' t _ _ _ hcarry => ?_
  · obtain ⟨env, h1, h2⟩ := hfields c'
    exact ⟨hb.1, by rw [h1]; exact h2 hb.2⟩
  · obtain ⟨env, h1, -⟩ := hfields c'
    rw [h1]
  · have hct : ∀ d, ((s.setCoro c { s.coros c with env := .elsewhere }).coros d).completionTokens =
        (s.coros d).completionTokens := fun d => by
      obtain ⟨env, h1, -⟩ := hfields d
      rw [h1]
    cases hcarry with
    | held mem inc eptr =>
        obtain ⟨env, h1, -⟩ := hfields c'
        exact .held (by rwa [h1]) (by rw [h1]; exact inc) eptr
    | released r n free ret eptr => exact .released r n (fun d => hct d ▸ free d) ret eptr

/-- The token that is moved with the handle of a process that has ended has its outcome. -/
theorem outcome {o : HandleId} {t : TokenId} {r : Result P.Value P.Error} (h : Stored s)
    (hend : Ended s) (ht : (s.objects o).2 = some t)
    (hcomp : (s.coros (s.objects o).1.coro).complete = true)
    (hu : (s.coros (s.objects o).1.coro).unique = false) (hr : s.takeObject o = .error r) :
    ∃ n, s.returnedAs (s.objects o).1.coro = [(r, n)] := by
  have hr : (awaitResume (.coroutine (s.objects o).1 (some t)) s).1 = r := by
    unfold State.takeObject at hr
    rw [ht] at hr
    simpa [hcomp] using hr
  obtain ⟨-, hb, hc⟩ := h o t ht
  cases hc hu with
  | held mem inc => rw [hcomp] at inc; cases inc
  | released r' n free ret eptr =>
      obtain ⟨r'', n', hr', hv⟩ := hend.ended _ ⟨hb.2, hcomp⟩
      rw [ret] at hr'
      obtain ⟨rfl, rfl⟩ := Prod.mk.inj (List.cons.inj hr').1
      rw [awaitResume_outcome eptr hv] at hr
      exact ⟨n, by rw [ret, hr]⟩

end Stored

end Cxxdes
