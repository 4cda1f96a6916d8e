-- SUMMARY: The completion token that async leaves with a process: what it is while the process goes on, and what it becomes when the process ends.
import Cxxdes.Async.Commute
import Cxxdes.Run.Compositions
import Cxxdes.Run.Comparator
import Cxxdes.Run.Leftovers

/-!
# The null token

`async` calls `await_suspend(nullptr)` on its copy of the handle: the process gets a completion
token with no coroutine. Nobody installs a handler on it and, unless the process fails, it gets no
exception, so that its execution does nothing but to advance the clock.
-/

namespace Cxxdes

variable {P : Program} {s s' s'' : State P} {c d : CoroId} {z : TokenId}

/-! ### While the process goes on -/

/-- `z` is a completion token of the shared process `c` without an exception. -/
structure State.NullToken (s : State P) (c : CoroId) (z : TokenId) : Prop where
  lt : c < s.nextCoro
  shared : (s.coros c).unique = false
  mem : z ∈ (s.coros c).completionTokens
  eptr : (s.tokens z).eptr = none

theorem State.NullToken.held (h : s.NullToken c z) : s.Held z := .inr (.inl ⟨c, h.mem⟩)

theorem State.NullToken.lt_next (h : s.NullToken c z) (hs : Sound s) : z < s.nextToken := by
  obtain ⟨gone, own, ho⟩ := hs.owned
  exact ho.live_lt (.inr (.inr (.inl ⟨c, h.mem⟩)))

theorem State.NullToken.edits {cd : Option CoroId} {n : TokenId} {nn : Prop} (h : s.NullToken c z)
    (hs : Sound s) (he : Edits cd n nn s s') (hn : s.nextToken ≤ n) : s'.NullToken c z := by
  have hx := Edits.ext he
  have hlt := h.lt_next hs
  have hco := hx.coro c h.lt
  have htok := hx.tokenFields z (Nat.lt_of_lt_of_le hlt hn) hlt
  exact ⟨Nat.lt_of_lt_of_le h.lt hx.nextCoro, hco.unique.trans h.shared,
    hco.shared h.shared z h.mem, htok.2.2.trans h.eptr⟩

/-- A change that leaves the completion tokens and the exceptions of tokens as they are. -/
theorem State.NullToken.congr (h : s.NullToken c z) (hn : s.nextCoro ≤ s'.nextCoro)
    (hu : (s'.coros c).unique = (s.coros c).unique)
    (hts : (s'.coros c).completionTokens = (s.coros c).completionTokens)
    (he : (s'.tokens z).eptr = (s.tokens z).eptr) : s'.NullToken c z :=
  ⟨Nat.lt_of_lt_of_le h.lt hn, hu.trans h.shared, hts ▸ h.mem, he.trans h.eptr⟩

/-- The body of `d` goes on or is suspended. -/
theorem State.NullToken.setStatus (h : s.NullToken c z) (hn : s'.nextCoro = s.nextCoro)
    (htok : s'.tokens = s.tokens) {st : Status P}
    (hco : s'.coros = Function.update s.coros d { s.coros d with status := st }) :
    s'.NullToken c z := by
  have hc : s'.coros c = { s.coros c with status := (s'.coros c).status } := by
    rw [hco]
    by_cases hcd : c = d
    · subst hcd
      simp
    · simp [Function.update_of_ne hcd]
  exact h.congr (Nat.le_of_eq hn.symm) (by rw [hc]) (by rw [hc]) (by rw [htok])

/-- The end of another process. -/
theorem State.NullToken.doReturn (h : s.NullToken c z) (hne : c ≠ d) (r : Result P.Value P.Error) :
    (s.doReturn d r).NullToken c z := by
  have hco : (s.doReturn d r).coros c = s.coros c := by
    rw [State.doReturn_eq]
    exact Function.update_of_ne hne ..
  refine h.congr ?_ (by rw [hco]) (by rw [hco]) ?_
  · rw [State.doReturn_eq]
    simp
  · rw [State.doReturn_eq]
    exact (s.releaseAll_fields _ z).2.2

theorem State.NullToken.ran {nn : Prop} {act : Action P.User P.Frame P.Value P.Error}
    (h : s.NullToken c z) (hs : Sound s) (hr : Ran nn s d act s') (hends : d = c → ¬ act.Ends) :
    s'.NullToken c z := by
  cases hr with
  | continues s1 _ he hc =>
      obtain ⟨f, hco⟩ := hc.coros
      exact (h.edits hs he (Nat.le_refl _)).setStatus hc.nextCoro hc.quiet.tokens hco
  | throws a k sm s1 _ hact hthrow hm he hc =>
      obtain ⟨f, hco⟩ := hc.coros
      have h1 := h.edits hs hm (Nat.le_refl _)
      have hsm := hs.edits (by simp) hm
      exact (h1.edits hsm he (Nat.le_refl _)).setStatus hc.nextCoro hc.quiet.tokens hco
  | suspends a a' k sm s1 hact hm he =>
      have h1 := h.edits hs hm (Nat.le_refl _)
      have hsm := hs.edits (by simp) hm
      exact (h1.edits hsm he (Nat.le_refl _)).setStatus (suspend_nextCoro ..)
        (Quiet.suspend s1 d a' k).tokens (suspend_coros ..)
  | returns v hact =>
      have hne : c ≠ d := fun hcd => hends hcd.symm (by rw [hact]; trivial)
      have h1 : (s.setCoro d { s.coros d with returnValue := v }).NullToken c z :=
        h.congr (Nat.le_refl _) (by simp [State.setCoro, Function.update_of_ne hne])
          (by simp [State.setCoro, Function.update_of_ne hne]) rfl
      exact h1.doReturn hne _
  | fails e hact =>
      have hne : c ≠ d := fun hcd => hends hcd.symm (by rw [hact]; trivial)
      -- a token waits for one process only
      obtain ⟨gone, own, ho⟩ := hs.owned
      have hno : z ∉ (s.coros d).completionTokens := fun hz => by
        have h1 := ho.completion c z h.mem
        rw [ho.completion d z hz] at h1
        exact hne (Owner.completion.inj h1).symm
      have h1 : (s.propagateException d e).NullToken c z := by
        rw [State.propagateException_eq]
        refine h.congr (Nat.le_refl _) rfl rfl ?_
        simp only
        rw [if_neg hno]
      exact h1.doReturn hne _

theorem State.NullToken.stepped {t : TokenId} (h : s.NullToken c z) (hs : Sound s)
    (ht : t ∈ s.queue)
    (hst : Stepped s t s') : s'.NullToken c z := by
  cases hst with
  | rethrow i e | count i | raise e | skip => exact h.congr (Nat.le_refl _) rfl rfl rfl
  | fire i out hh he hout hf =>
      refine h.congr (Nat.le_refl _) rfl rfl ?_
      by_cases hz : z = out
      · subst hz
        simp [State.fire, State.scheduleToken, State.setToken, State.setHandler,
          State.outputToken, State.pop]
      · simp [State.fire, State.scheduleToken, State.setToken, State.setHandler, State.pop,
          Function.update_of_ne hz]
  | start d f => exact h.setStatus rfl rfl rfl
  | resume d a k r s1 hh hc hsus hr =>
      have hp := hs.pop ht
      have hq : Quiet (s.pop t) { s.pop t with current := some d } := .of_coros rfl
      have h0 : Sound { s.pop t with current := some d } :=
        hp.quiet hq rfl rfl rfl fun c' hc' => by cases hc'; exact hs.started.token t d hc
      have h1 : ({ s.pop t with current := some d } : State P).NullToken c z :=
        h.congr (Nat.le_refl _) rfl rfl rfl
      have he : Edits none (s.pop t).nextToken False { s.pop t with current := some d } s1 :=
        awaitResume_edits_of hr
      exact (h1.edits h0 he (Nat.le_refl _)).setStatus rfl rfl rfl

theorem State.NullToken.step {l : Label P} (h : s.NullToken c z) (hs : Sound s)
    (hstep : Step s l s')
    (hends : ∀ f, l = .exec c → (s.coros c).status = .running f → ¬ (s.next f).Ends) :
    s'.NullToken c z := by
  cases hstep with
  | call f o =>
      have he : Edits none s.nextToken False s (s.newCoro (.user (P.start f)) o) :=
        .single (.newCoro _ o (.user f) fun hf => hf.elim)
      exact h.edits hs he (Nat.le_refl _)
  | bind a =>
      have he : Edits none s.nextToken False s (s.bind a) :=
        bind_call_edits hs.tidy a fun hf => hf.elim
      exact h.edits hs he (Nat.le_refl _)
  | elsewhere q henv =>
      by_cases hq : c = q
      · subst hq
        exact h.congr (Nat.le_refl _) (by simp [State.setCoro]) (by simp [State.setCoro]) rfl
      · exact h.congr (Nat.le_refl _) (by simp [State.setCoro, Function.update_of_ne hq])
          (by simp [State.setCoro, Function.update_of_ne hq]) rfl
  | step t _ htop hst => exact h.stepped hs htop.1 (step_stepped hst)
  | advance deadline => exact h.congr (Nat.le_refl _) rfl rfl rfl
  | exec d _ hex =>
      obtain ⟨f, hst, hran⟩ := exec_ran hs.tidy hex fun _ _ hf => hf.elim
      have hs1 : Sound (s.ran f) := hs.quiet (.of_coros rfl) rfl rfl rfl hs.started.current
      have h1 : (s.ran f).NullToken c z := h.congr (Nat.le_refl _) rfl rfl rfl
      refine h1.ran hs1 hran fun hd => ?_
      subst hd
      exact hends f rfl hst
  | reset =>
      unfold State.reset
      rw [State.destroyAll_eq]
      refine h.congr (Nat.le_refl _) ?_ ?_ rfl
      · simp only
        split <;> rfl
      · simp only
        split <;> rfl

/-! ### When the process ends -/

/-- What the null token has become in the environment of the unique process: a token that does
not exist. -/
def Retype.dropped (v : Retype) (s : State P) (z : TokenId) : Retype :=
  { v with null := some z, time := (s.tokens z).time, key := s.pushed z }

/-- Releasing the null token first makes the environments the same up to that token. -/
theorem Retyped.dropped {v : Retype} {w : TokenId} (h : Retyped v s s') (hnull : v.null = none)
    (hts : (s.coros v.coro).completionTokens = [z, w]) (hs : Sound s)
    (hsch : z ∉ s.scheduled) (hfits : s.Fits) :
    Retyped (v.dropped s z)
      ((s.setCoro v.coro { s.coros v.coro with completionTokens := [w] }).releaseToken z) s' := by
  obtain ⟨gone, own, ho⟩ := hs.owned
  have hmem : z ∈ (s.coros v.coro).completionTokens := by rw [hts]; exact List.mem_cons_self
  have hown := ho.completion v.coro z hmem
  have hlt : z < s.nextToken := ho.live_lt (.inr (.inr (.inl ⟨_, hmem⟩)))
  have hq : z ∉ s.queue := fun hz => by
    rw [ho.queue z hz] at hown
    cases hown
  have hex : z ∉ s.executed := fun hz => by
    rw [ho.executed z hz] at hown
    cases hown
  have hzw : z ≠ w := by
    have hnd := ho.completionNodup v.coro
    rw [hts] at hnd
    exact fun hzw => (List.nodup_cons.mp hnd).1 (hzw ▸ List.mem_singleton_self w)
  have hall : ∀ l : List TokenId, l.filter v.keeps = l := fun l =>
    List.filter_eq_self.mpr fun t _ => Retype.keeps_of_ne (by rw [hnull]; simp)
  have hkeep : ∀ l : List TokenId, z ∉ l → l.filter (v.dropped s z).keeps = l := fun l hl =>
    List.filter_eq_self.mpr fun t ht => Retype.keeps_of_ne fun hzt => hl (by
      rw [Option.some.inj hzt]
      exact ht)
  have hdrop : ∀ l : List TokenId, z ∉ l → (l ++ [z]).filter (v.dropped s z).keeps = l := by
    intro l hl
    have hz : (v.dropped s z).keeps z = false := by simp [Retype.keeps, Retype.dropped]
    rw [List.filter_append, List.filter_singleton, hz, hkeep l hl]
    exact List.append_nil l
  have hheap : s'.Heaped ↔ s.Heaped :=
    ⟨h.heaps.back fun z' hz' => (by rw [hnull] at hz'; cases hz'), h.heaps.heaped⟩
  constructor
  · obtain ⟨legal, he⟩ := h.eq
    refine ⟨legal, ?_⟩
    rw [he]
    unfold State.releaseToken State.scheduleToken State.setToken State.setCoro State.withLegal
      State.retype
    simp only [hall, hdrop _ hq, hdrop _ hsch, hkeep _ hex]
    congr 1
    · funext t
      rw [Token.retype_of_ne _ (by rw [hnull]; simp)]
      by_cases ht : t = z
      · subst ht
        simp [Token.retype, Retype.dropped]
      · rw [Token.retype_of_ne _ fun hzt => ht (Option.some.inj hzt).symm, Function.update_of_ne ht]
    · funext c
      by_cases hc : c = v.coro
      · subst hc
        simp [CoroData.retype, Retype.dropped, hts]
      · rw [Function.update_of_ne hc, retype_of_ne _ _ hc]
        exact (retype_of_ne (v := v.dropped s z) _ _ hc).symm
    · funext t
      rw [hnull, if_neg (by simp)]
      by_cases ht : t = z
      · subst ht
        simp [Retype.dropped]
      · rw [Function.update_of_ne ht]
        exact (if_neg fun hzt => ht (Option.some.inj hzt).symm).symm
  · refine ⟨h.known.coro, fun z' hz' => ?_, hfits z hlt⟩
    obtain rfl := Option.some.inj hz'
    refine ⟨hlt, ?_⟩
    rintro (⟨e, hh⟩ | ⟨c, hh⟩ | ⟨i, hh⟩)
    · rw [ho.event e z hh] at hown
      cases hown
    · by_cases hc : c = v.coro
      · subst hc
        simp only [State.releaseToken, State.scheduleToken, State.setToken, State.setCoro,
          Function.update_self, List.mem_singleton] at hh
        exact hzw hh
      · simp only [State.releaseToken, State.scheduleToken, State.setToken, State.setCoro,
          Function.update_of_ne hc] at hh
        rw [ho.completion c z hh] at hown
        exact hc (Owner.completion.inj hown)
    · rw [ho.output i z hh] at hown
      cases hown
  · refine ⟨fun hpushed => ?_, fun hz' => ?_, fun hz' => by cases hz'⟩
    · rcases hpushed with hlen | hlegal
      · have hnil : s.queue = [] := by
          simpa [State.releaseToken, State.scheduleToken, State.setToken, State.setCoro] using hlen
        exact hheap.mpr (.inl (by simp [hnil]))
      · exact hheap.mpr (scheduleToken_legal.mp hlegal).1
    · exact absurd (List.mem_append_right _ (List.mem_singleton_self z)) (hz' z rfl)

/-- The shared process ends with the null token and the token of one waiter, the unique process
with that of the waiter only. -/
theorem Retyped.ends {v : Retype} {w : TokenId} (h : Retyped v s s') (hnull : v.null = none)
    (hts : (s.coros v.coro).completionTokens = [z, w]) (hs : Sound s)
    (hsch : z ∉ s.scheduled) (hfits : s.Fits) (r : Result P.Value P.Error) :
    Retyped (v.dropped s z) (s.doReturn v.coro r) (s'.doReturn v.coro r) := by
  have hd := h.dropped hnull hts hs hsch hfits
  have htw : (s'.coros v.coro).completionTokens = [w] := by
    rw [h.coros]
    simp [CoroData.retype, hts]
  have hsb : ((s.setCoro v.coro { s.coros v.coro with completionTokens := [w] }).releaseToken
      z).doReturn v.coro r = s.doReturn v.coro r := by
    have hco : ((s.setCoro v.coro { s.coros v.coro with completionTokens := [w] }).releaseToken
        z).coros v.coro = { s.coros v.coro with completionTokens := [w] } :=
      Function.update_self ..
    have hsc : ((s.setCoro v.coro { s.coros v.coro with completionTokens := [w] }).releaseToken
        z).scheduleCompletion v.coro = s.scheduleCompletion v.coro := by
      unfold State.scheduleCompletion
      rw [hco, hts]
      exact congrArg (fun co => ({ s.releaseAll [z, w] with coros := co } : State P))
        (Function.update_idem ..)
    unfold State.doReturn
    rw [hsc]
    rfl
  have hret := hd.doReturn (c := v.coro) (by
    rw [htw]
    simp [State.releaseToken, State.scheduleToken, State.setToken, State.setCoro]) r
  rw [hsb] at hret
  exact hret

/-- `co_return` in the body of the process. -/
theorem Retyped.returns {v : Retype} {w : TokenId} {r : Option P.Value} (h : Retyped v s s')
    (hnull : v.null = none)
    (hts : (s.coros v.coro).completionTokens = [z, w]) (hs : Sound s)
    (hrun : ∃ f, (s.coros v.coro).status = .running f) (hsch : z ∉ s.scheduled) (hfits : s.Fits)
    (hret : s.returnFrom v.coro r = .ok s'') :
    ∃ t', s'.returnFrom v.coro r = .ok t' ∧ Retyped (v.dropped s z) s'' t' := by
  obtain ⟨f, hst⟩ := hrun
  have henv := hs.started.env_of_running hst
  have hd : ({ s'.coros v.coro with returnValue := r } : CoroData P) =
      ({ s.coros v.coro with returnValue := r } : CoroData P).retype v v.coro := by
    rw [h.coros]
    exact (retype_value_eq _ _ r).symm
  have h1 := h.setCoro v.coro hd fun _ _ ht => .inr (.inl ⟨v.coro, ht⟩)
  have hs1 : Sound (s.setCoro v.coro { s.coros v.coro with returnValue := r }) :=
    hs.update (.setCoro s v.coro _ rfl rfl) rfl henv (complete_of_status (by simp [hst])) rfl henv
      rfl hs.started.current
  have h2 := h1.ends hnull (w := w) (by simp [State.setCoro, hts])
    hs1 hsch hfits (.ok (.ofReturn r))
  have hnull' : s'.nullCompletionToken v.coro = false := by
    unfold State.nullCompletionToken
    rw [h.coros]
    simp [CoroData.retype, hts]
  unfold State.returnFrom at hret ⊢
  rw [h.void, hnull']
  split at hret
  · cases hret
  · next hvoid =>
      rw [if_neg hvoid]
      split at hret
      · cases hret
      · cases hret
        exact ⟨_, rfl, h2⟩

/-- What `co_return` leaves. -/
theorem returnFrom_ended {r : Option P.Value} (h : s.returnFrom c r = .ok s') :
    (s'.coros c).status = .finished ∧ (s'.tokens z).eptr = (s.tokens z).eptr := by
  unfold State.returnFrom at h
  split at h
  · cases h
  · split at h
    · cases h
    · cases h
      rw [State.doReturn_eq]
      exact ⟨by simp, (State.releaseAll_fields _ _ z).2.2⟩

/-- The completion tokens are scheduled relative to the current time. -/
theorem returnFrom_released {r : Option P.Value} (h : s.returnFrom c r = .ok s')
    (hnd : (s.coros c).completionTokens.Nodup) {u : TokenId}
    (hu : u ∈ (s.coros c).completionTokens) :
    u ∈ s'.queue ∧ (s'.tokens u).time = (s.tokens u).time + s.now := by
  unfold State.returnFrom at h
  split at h
  · cases h
  · split at h
    · cases h
    · cases h
      rw [State.doReturn_eq]
      generalize hv : s.setCoro c { s.coros c with returnValue := r } = s1
      have hco : (s1.coros c).completionTokens = (s.coros c).completionTokens := by
        rw [← hv]
        simp [State.setCoro]
      rw [← hco] at hnd hu
      refine ⟨?_, (congrArg Token.time (s1.releaseAll_of_mem hnd hu).1).trans (by rw [← hv]; rfl)⟩
      simp only [State.releaseAll_queue]
      exact List.mem_append_right _ hu

/-- A process that fails leaves the exception with its null token: whenever that token is executed,
`step()` rethrows. -/
theorem State.NullToken.fails {f : P.Frame} {e : Exn P.Error} (h : s.NullToken c z)
    (hh : (s.tokens z).handler = none) (hd : (s.tokens z).coroData = none)
    (hst : (s.coros c).status = .running f) (hact : s.next f = .throw e)
    (hex : s.exec c = .ok s') :
    z ∈ s'.queue ∧ ∀ t, Step s' (.step z) t → t.trace = s'.trace ++ [.raised e t.now] := by
  obtain ⟨g, hg, hacted⟩ := exec_acted hex
  rw [hst] at hg
  cases hg
  rw [hact] at hacted
  cases hacted with
  | fails _ hnull =>
      have hmem : z ∈ ((s.ran f).coros c).completionTokens := h.mem
      have hp := propagateException_fields (s.ran f) c e z
      have hr := doReturn_fields ((s.ran f).propagateException c e) c (.error e) z
      have heptr : ((((s.ran f).propagateException c e).doReturn c (.error e)).tokens z).eptr =
          some e := by
        rw [State.doReturn_eq]
        refine (State.releaseAll_fields _ _ z).2.2.trans ?_
        rw [State.propagateException_eq]
        simp only
        rw [if_pos hmem]
      have hh' := (hr.1.trans hp.1).trans hh
      have hd' := (hr.2.trans hp.2).trans hd
      constructor
      · rw [State.doReturn_eq, State.propagateException_eq]
        simp only [State.releaseAll_queue]
        exact List.mem_append_right _ hmem
      · intro t hstep
        cases hstep with
        | step _ _ htop hrun =>
            cases step_stepped hrun with
            | raise e' _ _ he =>
                rw [heptr] at he
                cases he
                rfl
            | skip _ _ he =>
                rw [heptr] at he
                cases he
            | rethrow i e' hi | fire i out hi | count i hi =>
                rw [hh'] at hi
                cases hi
            | start d' f' _ hc | resume d' a k r s1 _ hc =>
                rw [hd'] at hc
                cases hc

end Cxxdes
