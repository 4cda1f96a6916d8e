-- SUMMARY: No token is lost: every token that was ever created is in exactly one place.
import Cxxdes.Run.Compositions

/-!
# Holders of tokens

A token is created together with its place, and only moves from one place to another: it waits in
an event, a process or a handler until it is scheduled, is pending until it is executed, and has
been executed from then on. The exception is a unique process, which forgets its completion token
when it gets another one.
-/

namespace Cxxdes

variable {P : Program} {s s' : State P} {c : CoroId} {t : TokenId} {l : Label P}

/-- An output token that nothing can schedule any more: the tokens that report to its handler have
been executed, or are such tokens themselves. It goes with the last reference to the handler. -/
inductive State.Stranded (s : State P) : TokenId → Prop where
  | output (h : HandlerId) (t : TokenId) (hout : (s.handlers h).completionTkn = some t)
      (hkids : ∀ u < s.nextToken, (s.tokens u).handler = some h → u ∉ s.executed →
        s.Stranded u) : s.Stranded t

theorem State.Stranded.held (h : s.Stranded t) : ∃ i, (s.handlers i).completionTkn = some t := by
  cases h with
  | output i _ hout => exact ⟨i, hout⟩

/-- Where a token is. A `loose` one has been left behind with its handler. -/
def State.HeldBy (s : State P) (t : TokenId) : Owner → Prop
  | .queue => t ∈ s.queue
  | .event e => t ∈ s.events e
  | .completion c => t ∈ (s.coros c).completionTokens
  | .output h => (s.handlers h).completionTkn = some t ∧ ¬ s.Stranded t
  | .loose => s.Stranded t
  | .executed => t ∈ s.executed
  | .nobody => False

theorem State.Live.heldBy (h : s.Live t) : ∃ o, s.HeldBy t o := by
  rcases h with h | ⟨e, h⟩ | ⟨c, h⟩ | ⟨i, h⟩
  · exact ⟨.queue, h⟩
  · exact ⟨.event e, h⟩
  · exact ⟨.completion c, h⟩
  · by_cases hst : s.Stranded t
    · exact ⟨.loose, hst⟩
    · exact ⟨.output i, h, hst⟩

/-- A token has one owner, which is its handler when it has been left behind. -/
theorem Owned.heldBy {gone : List TokenId} {own : TokenId → Owner} (h : Owned gone s own)
    {o : Owner} (ht : s.HeldBy t o) : own t = o ∨ s.Stranded t ∧ o = .loose := by
  cases o with
  | queue => exact .inl (h.queue t ht)
  | event e => exact .inl (h.event e t ht)
  | completion c => exact .inl (h.completion c t ht)
  | output i => exact .inl (h.output i t ht.1)
  | loose => exact .inr ⟨ht, rfl⟩
  | executed => exact .inl (h.executed t ht)
  | nobody => exact ht.elim

/-- What has been left behind is nowhere else. -/
theorem Owned.loose {gone : List TokenId} {own : TokenId → Owner} (h : Owned gone s own)
    {o : Owner} (hst : s.Stranded t) (ht : s.HeldBy t o) : o = .loose := by
  obtain ⟨i, hout⟩ := hst.held
  rcases h.heldBy ht with hown | ⟨-, rfl⟩
  · rw [h.output i t hout] at hown
    subst hown
    exact absurd hst ht.2
  · rfl

theorem Owned.heldBy_unique {gone : List TokenId} {own : TokenId → Owner} (h : Owned gone s own)
    {o o' : Owner} (ht : s.HeldBy t o) (ht' : s.HeldBy t o') : o = o' := by
  rcases h.heldBy ht with hown | ⟨hst, rfl⟩
  · rcases h.heldBy ht' with hown' | ⟨hst, rfl⟩
    · exact hown.symm.trans hown'
    · exact h.loose hst ht
  · exact (h.loose hst ht').symm

theorem Owned.stranded_notMem {gone : List TokenId} {own : TokenId → Owner} (h : Owned gone s own)
    (hst : s.Stranded t) : t ∉ s.queue ∧ t ∉ s.executed := by
  obtain ⟨i, hout⟩ := hst.held
  have hown := h.output i t hout
  refine ⟨fun hq => ?_, fun hex => ?_⟩
  · rw [h.queue t hq] at hown
    cases hown
  · rw [h.executed t hex] at hown
    cases hown

/-- What has been left behind stays so: its handler is not invoked any more, and no new token
reports to it. -/
theorem Step.stranded (hstep : Step s l s') (hs : Sound s) (h : s.Stranded t) : s'.Stranded t := by
  obtain ⟨gone, own, ho⟩ := hs.owned
  have hm := hstep.moves hs
  have hnext : (s.popped l).nextToken = s.nextToken := by cases l <;> rfl
  have htok : (s.popped l).tokens = s.tokens := by cases l <;> rfl
  have hnh : (s.popped l).nextHandler = s.nextHandler := by cases l <;> rfl
  have hexec : ∀ u ∈ s.executed, u ∈ s'.executed := fun u hu => by
    rw [hm.executed]
    cases l with
    | step v => exact List.mem_append_left _ hu
    | call | bind | elsewhere | advance | exec | reset => exact hu
  induction h with
  | output i t hout hkids ih =>
      have hi : i < s.nextHandler := Nat.lt_of_not_le fun hle => by
        rw [ho.freshHandler i hle] at hout
        cases hout
      -- a token that invokes the handler would be pending, and so neither executed nor stranded
      have hno : ∀ u, l = .step u → (s.tokens u).handler ≠ some i := fun u hl hh => by
        have hq : u ∈ s.queue := by
          subst hl
          cases hstep with
          | step _ _ htop _ => exact htop.1
        have hex : u ∉ s.executed := fun hex => by
          have hown := ho.queue u hq
          rw [ho.executed u hex] at hown
          cases hown
        exact (ho.stranded_notMem (hkids u (ho.queue_lt hq) hh hex)).1 hq
      have heq : s'.handlers i = s.handlers i := by
        cases hstep.handler hs hi with
        | keeps _ heq => exact heq
        | counts u hl hh => exact absurd hh (hno u hl)
        | fires u out hl hh => exact absurd hh (hno u hl)
      refine .output i t (by rw [heq]; exact hout) fun u hu hh hex => ?_
      cases Nat.lt_or_ge u s.nextToken with
      | inl hlt =>
          have hfield := (hm.fields u (hnext ▸ hlt)).1
          rw [hh, htok] at hfield
          exact ih u hlt hfield.symm fun hold => hex (hexec u hold)
      | inr hge =>
          rcases hm.reports u i (hnext ▸ hge) hu hh with hnone | ⟨hle, -⟩
          · cases hnone
          · exact absurd hi (Nat.not_lt.mpr (hnh ▸ hle))

/-- Every token that was created can still be executed, or has been. -/
def State.Conserved (s : State P) : Prop :=
  ∀ t < s.nextToken, s.Live t ∨ t ∈ s.executed

/-- No process is unique. -/
def State.Shared (s : State P) : Prop :=
  ∀ c, (s.coros c).unique = false

namespace State.Conserved

/-- Tokens move, and the new ones have a place. -/
theorem moved (h : s.Conserved)
    (hold : ∀ t < s.nextToken, s.Live t → s'.Live t ∨ t ∈ s'.executed)
    (hex : ∀ t ∈ s.executed, t ∈ s'.executed)
    (hnew : ∀ t, s.nextToken ≤ t → t < s'.nextToken → s'.Live t) : s'.Conserved := by
  intro t ht
  cases Nat.lt_or_ge t s.nextToken with
  | inl hlt =>
      cases h t hlt with
      | inl hlive => exact hold t hlt hlive
      | inr hdone => exact .inr (hex t hdone)
  | inr hge => exact .inl (hnew t hge ht)

theorem quiet (h : s.Conserved) (hq : Quiet s s') : s'.Conserved := by
  refine h.moved (fun t _ hl => .inl ?_) (fun t ht => by rw [hq.executed]; exact ht) ?_
  · unfold State.Live at hl ⊢
    rw [hq.queue, hq.events, hq.handlers]
    simpa only [hq.completion] using hl
  · intro t hge hlt
    rw [hq.nextToken] at hlt
    exact absurd hlt (Nat.not_lt.mpr hge)

end State.Conserved

/-! ### Edits -/

/-- The only token that an edit creates. -/
private theorem eq_nextToken {n t : Nat} (hge : n ≤ t) (hlt : t < n + 1) : t = n :=
  Nat.le_antisymm (Nat.le_of_lt_succ hlt) hge

theorem Edit.conserved {cd : Option CoroId} {n : TokenId} {nn : Prop} (he : Edit cd n nn s s')
    (hs : Sound s) (hsh : s.Shared) (h : s.Conserved) : s'.Conserved := by
  obtain ⟨gone, own, ho⟩ := hs.owned
  have hex : ∀ t ∈ s.executed, t ∈ s'.executed := fun t ht => by rw [he.ext.executed]; exact ht
  cases he with
  | newCoro f o =>
      refine h.moved (fun t _ hl => .inl ?_) hex fun t hge hlt => absurd hlt (Nat.not_lt.mpr hge)
      rcases hl with hl | hl | ⟨c, hl⟩ | hl
      · exact .inl hl
      · exact .inr (.inl hl)
      · -- no token is held by a process that has not been called
        have hne : c ≠ s.nextCoro := by
          rintro rfl
          rw [hs.tidy.fresh s.nextCoro (Nat.le_refl _)] at hl
          cases hl
        refine .inr (.inr (.inl ⟨c, ?_⟩))
        simpa [State.newCoro, Function.update_of_ne hne] using hl
      · exact .inr (.inr (.inr hl))
  | startCoro c priority henv =>
      have htok : ∀ d, ((s.startCoro c priority).coros d).completionTokens =
          (s.coros d).completionTokens := by
        intro d
        by_cases hd : d = c
        · subst hd
          simp [State.startCoro, State.log, State.scheduleToken, State.newToken, State.setCoro,
            CoroData.started]
        · simp [State.startCoro, State.log, State.scheduleToken, State.newToken, State.setCoro,
            Function.update_of_ne hd]
      refine h.moved (fun t _ hl => .inl ?_) hex fun t hge hlt => ?_
      · rcases hl with hl | hl | ⟨d, hl⟩ | hl
        · exact .inl (List.mem_append_left _ hl)
        · exact .inr (.inl hl)
        · exact .inr (.inr (.inl ⟨d, by rw [htok]; exact hl⟩))
        · exact .inr (.inr (.inr hl))
      · rw [eq_nextToken hge hlt]
        exact .inl (List.mem_append_right _ (List.mem_singleton_self _))
  | newCompletion p cd' =>
      have htok : ∀ d, ((s.newCompletion p cd').coros d).completionTokens =
          if d = p.coro then (s.coros d).completionTokens ++ [s.nextToken]
          else (s.coros d).completionTokens := by
        intro d
        by_cases hd : d = p.coro
        · subst hd
          have hu := hsh p.coro
          simp [State.newCompletion, State.setCoro, CoroData.completionToken, State.newToken, hu]
        · simp [State.newCompletion, State.setCoro, State.newToken, hd]
      refine h.moved (fun t _ hl => .inl ?_) hex fun t hge hlt => ?_
      · rcases hl with hl | hl | ⟨d, hl⟩ | hl
        · exact .inl hl
        · exact .inr (.inl hl)
        · refine .inr (.inr (.inl ⟨d, ?_⟩))
          rw [htok]
          split
          · exact List.mem_append_left _ hl
          · exact hl
        · exact .inr (.inr (.inr hl))
      · rw [eq_nextToken hge hlt]
        refine .inr (.inr (.inl ⟨p.coro, ?_⟩))
        rw [htok, if_pos rfl]
        exact List.mem_append_right _ (List.mem_singleton_self _)
  | timeout time priority =>
      refine h.moved (fun t _ hl => .inl ?_) hex fun t hge hlt => ?_
      · exact hl.imp (List.mem_append_left _) id
      · rw [eq_nextToken hge hlt]
        exact .inl (List.mem_append_right _ (List.mem_singleton_self _))
  | newWaiter evt latency priority =>
      have hev : ∀ e, (s.newWaiter evt ⟨latency, priority, cd, none, none⟩).events e =
          if e = evt then s.events e ++ [s.nextToken] else s.events e := by
        intro e
        by_cases he : e = evt
        · subst he
          simp [State.newWaiter]
        · simp [State.newWaiter, State.newToken, he]
      refine h.moved (fun t _ hl => .inl ?_) hex fun t hge hlt => ?_
      · rcases hl with hl | ⟨e, hl⟩ | hl
        · exact .inl hl
        · refine .inr (.inl ⟨e, ?_⟩)
          rw [hev]
          split
          · exact List.mem_append_left _ hl
          · exact hl
        · exact .inr (.inr hl)
      · rw [eq_nextToken hge hlt]
        refine .inr (.inl ⟨evt, ?_⟩)
        rw [hev, if_pos rfl]
        exact List.mem_append_right _ (List.mem_singleton_self _)
  | newHandler d total =>
      refine h.moved (fun t _ hl => .inl ?_) hex fun t hge hlt => ?_
      · rcases hl with hl | hl | hl | ⟨i, hl⟩
        · exact .inl hl
        · exact .inr (.inl hl)
        · exact .inr (.inr (.inl hl))
        · have hne : i ≠ s.nextHandler := by
            rintro rfl
            rw [ho.freshHandler s.nextHandler (Nat.le_refl _)] at hl
            cases hl
          refine .inr (.inr (.inr ⟨i, ?_⟩))
          simpa [State.newHandler, State.newToken, Function.update_of_ne hne] using hl
      · rw [eq_nextToken hge hlt]
        exact .inr (.inr (.inr ⟨s.nextHandler, by simp [State.newHandler]⟩))
  | install u i =>
      exact h.moved (fun t _ hl => .inl hl) hex fun t hge hlt => absurd hlt (Nat.not_lt.mpr hge)
  | wake evt =>
      refine h.moved (fun t _ hl => .inl ?_) hex fun t hge hlt => ?_
      · rcases hl with hl | ⟨e, hl⟩ | hl | hl
        · exact .inl (by simp [State.wake, hl])
        · by_cases he : e = evt
          · subst he
            exact .inl (by simp [State.wake, hl])
          · exact .inr (.inl ⟨e, by simpa [State.wake, Function.update_of_ne he] using hl⟩)
        · exact .inr (.inr (.inl (by simpa [State.wake] using hl)))
        · exact .inr (.inr (.inr (by simpa [State.wake] using hl)))
      · have hlt' : t < s.nextToken := by simpa [State.wake] using hlt
        exact absurd hlt' (Nat.not_lt.mpr hge)
  | setObject i tkn =>
      exact h.moved (fun t _ hl => .inl hl) hex fun t hge hlt => absurd hlt (Nat.not_lt.mpr hge)

theorem Ext.shared_old {n : TokenId} (hx : Ext n s s') (hf : s.Fresh) (h : s'.Shared) :
    s.Shared := by
  intro c
  cases Nat.lt_or_ge c s.nextCoro with
  | inl hlt => exact (hx.coro c hlt).unique.symm.trans (h c)
  | inr hge => rw [hf c hge]

theorem Edits.conserved {cd : Option CoroId} {n : TokenId} {nn : Prop} (he : Edits cd n nn s s')
    (hs : Sound s) (hcd : ∀ c, cd = some c → (s.coros c).env = .here) (hsh : s'.Shared)
    (h : s.Conserved) : s'.Conserved := by
  induction he with
  | refl => exact h
  | tail he he1 ih =>
      have hs1 := hs.edits hcd he
      have hsh1 := he1.ext.shared_old hs1.tidy.fresh hsh
      exact he1.conserved hs1 hsh1 (ih hsh1)

/-! ### Transitions -/

/-- The popped token has been executed. -/
theorem State.Conserved.pop (h : s.Conserved) (t : TokenId) : (s.pop t).Conserved := by
  refine h.moved (fun u _ hl => ?_) (fun u hu => List.mem_append_left _ hu)
    fun u hge hlt => absurd hlt (Nat.not_lt.mpr hge)
  rcases hl with hl | hl
  · by_cases hu : u = t
    · subst hu
      exact .inr (List.mem_append_right _ (List.mem_singleton_self _))
    · exact .inl (.inl ((List.mem_erase_of_ne hu).mpr hl))
  · exact .inl (.inr hl)

theorem State.Conserved.count (h : s.Conserved) (i : HandlerId) : (s.count i).Conserved := by
  refine h.moved (fun t _ hl => .inl ?_) (fun t ht => ht)
    fun t hge hlt => absurd hlt (Nat.not_lt.mpr hge)
  rcases hl with hl | hl | hl | ⟨j, hl⟩
  · exact .inl hl
  · exact .inr (.inl hl)
  · exact .inr (.inr (.inl hl))
  · refine .inr (.inr (.inr ⟨j, ?_⟩))
    by_cases hj : j = i
    · subst hj
      simpa [State.count, State.setHandler] using hl
    · simpa [State.count, State.setHandler, Function.update_of_ne hj] using hl

/-- The output token of the handler is scheduled. -/
theorem State.Conserved.fire (h : s.Conserved) {i : HandlerId} {u out : TokenId}
    (hout : (s.handlers i).completionTkn = some out) : (s.fire i u out).Conserved := by
  refine h.moved (fun t _ hl => .inl ?_) (fun t ht => ht)
    fun t hge hlt => absurd hlt (Nat.not_lt.mpr hge)
  rcases hl with hl | hl | hl | ⟨j, hl⟩
  · exact .inl (List.mem_append_left _ hl)
  · exact .inr (.inl hl)
  · exact .inr (.inr (.inl hl))
  · by_cases hj : j = i
    · subst hj
      obtain rfl : out = t := Option.some.inj (hout.symm.trans hl)
      exact .inl (List.mem_append_right _ (List.mem_singleton_self _))
    · refine .inr (.inr (.inr ⟨j, ?_⟩))
      simpa [State.fire, State.setHandler, State.setToken, State.scheduleToken,
        Function.update_of_ne hj] using hl

theorem Stepped.conserved (hst : Stepped s t s') (h : s.Conserved) : s'.Conserved := by
  have hpop := h.pop t
  cases hst with
  | rethrow i e => exact (hpop.count i).quiet (.of_coros rfl)
  | count i => exact hpop.count i
  | fire i out hh he hout hf => exact hpop.fire hout
  | raise e => exact hpop.quiet (.of_coros rfl)
  | skip => exact hpop
  | start c f =>
      have hq : Quiet (s.pop t) { s.pop t with current := some c } := .of_coros rfl
      exact hpop.quiet ((hq.trans (.setStatus _ c _)).trans (.of_coros rfl))
  | resume c a k r s1 hh hc hst hr =>
      obtain ⟨objects, hobj, -⟩ := awaitResume_objects a { s.pop t with current := some c }
      rw [hr] at hobj
      simp only at hobj
      subst hobj
      have hq : Quiet (s.pop t) { s.pop t with current := some c, objects := objects } :=
        .of_coros rfl
      exact hpop.quiet ((hq.trans (.of_coros rfl)).trans (.deliver _ c a.target k r))

/-- A process that ends schedules its completion tokens. -/
theorem State.Conserved.doReturn (h : s.Conserved) (c : CoroId) (r : Result P.Value P.Error) :
    (s.doReturn c r).Conserved := by
  rw [State.doReturn_eq]
  refine h.moved (fun t _ hl => .inl ?_) (fun t ht => by simpa using ht) fun t hge hlt => ?_
  · rcases hl with hl | hl | ⟨d, hl⟩ | hl
    · exact .inl (by simp [hl])
    · exact .inr (.inl (by simpa using hl))
    · by_cases hd : d = c
      · subst hd
        exact .inl (by simp [hl])
      · exact .inr (.inr (.inl ⟨d, by simpa [Function.update_of_ne hd] using hl⟩))
    · exact .inr (.inr (.inr (by simpa using hl)))
  · have hlt' : t < s.nextToken := by simpa using hlt
    exact absurd hlt' (Nat.not_lt.mpr hge)

theorem State.Shared.update_old {d : CoroData P} (h : s'.Shared)
    (hco : s'.coros = Function.update s.coros c d) (hd : d.unique = (s.coros c).unique) :
    s.Shared := by
  intro e
  have he := h e
  rw [hco] at he
  by_cases hec : e = c
  · subst hec
    rw [Function.update_self, hd] at he
    exact he
  · rwa [Function.update_of_ne hec] at he

theorem State.Shared.doReturn_old {r : Result P.Value P.Error} (h : (s.doReturn c r).Shared) :
    s.Shared := by
  refine h.update_old (c := c)
    (d := { s.coros c with completionTokens := [], status := .finished }) ?_ rfl
  rw [State.doReturn_eq]

theorem State.Shared.congr (h : s'.Shared) (hco : s'.coros = s.coros) : s.Shared := fun e => by
  rw [← hco]
  exact h e

theorem Stepped.shared_old (hst : Stepped s t s') (h : s'.Shared) : s.Shared := by
  cases hst.did with
  | passes hp => exact h.congr hp.coros
  | starts c f _ he | resumes c a k r _ _ he => exact h.update_old he.coros rfl

/-- What a body does creates and moves tokens. -/
theorem Ran.conserved {act : Action P.User P.Frame P.Value P.Error} (hr : Ran False s c act s')
    (hs : Sound s) (hsh : s'.Shared) (h : s.Shared → s.Conserved) :
    s.Shared ∧ s'.Conserved := by
  have hcur : ∀ {sm : State P}, Sound sm → Ext s.nextToken s sm →
      ∀ d, s.current = some d → (sm.coros d).env = .here := fun hsm hx d hd =>
    hsm.started.current d (hx.current.trans hd)
  cases hr with
  | continues s1 _ he hc =>
      obtain ⟨f, hco⟩ := hc.coros
      have hsh1 : s1.Shared := hsh.update_old hco rfl
      have hsh0 := (Edits.ext he).shared_old hs.tidy.fresh hsh1
      exact ⟨hsh0, (Edits.conserved he hs (by simp) hsh1 (h hsh0)).quiet hc.quiet⟩
  | throws a k sm s1 _ hact hthrow hm he hc =>
      obtain ⟨f, hco⟩ := hc.coros
      have hsm := hs.edits (by simp) hm
      have hsh1 : s1.Shared := hsh.update_old hco rfl
      have hshm := (Edits.ext he).shared_old hsm.tidy.fresh hsh1
      have hsh0 := (Edits.ext hm).shared_old hs.tidy.fresh hshm
      have h1 := Edits.conserved hm hs (by simp) hshm (h hsh0)
      exact ⟨hsh0, (Edits.conserved he hsm (hcur hsm (Edits.ext hm)) hsh1 h1).quiet hc.quiet⟩
  | suspends a a' k sm s1 hact hm he =>
      have hsm := hs.edits (by simp) hm
      have hsh1 : s1.Shared := hsh.update_old (suspend_coros s1 c a' k) rfl
      have hshm := (Edits.ext he).shared_old hsm.tidy.fresh hsh1
      have hsh0 := (Edits.ext hm).shared_old hs.tidy.fresh hshm
      have h1 := Edits.conserved hm hs (by simp) hshm (h hsh0)
      exact ⟨hsh0, (Edits.conserved he hsm (hcur hsm (Edits.ext hm)) hsh1 h1).quiet
        (Quiet.suspend s1 c a' k)⟩
  | returns v =>
      have hsh1 := hsh.doReturn_old
      have hsh0 : s.Shared := hsh1.update_old rfl rfl
      have hq := Quiet.setCoro s c { s.coros c with returnValue := v } rfl rfl
      exact ⟨hsh0, ((h hsh0).quiet hq).doReturn c _⟩
  | fails e =>
      have hsh1 := hsh.doReturn_old
      have hco : (s.propagateException c e).coros = s.coros := by
        rw [State.propagateException_eq]
      have hsh0 : s.Shared := hsh1.congr hco
      refine ⟨hsh0, State.Conserved.doReturn ?_ c _⟩
      refine (h hsh0).moved (fun t _ hl => .inl ?_) (fun t ht => ?_) fun t hge hlt => ?_
      · rw [State.propagateException_eq]
        exact hl
      · rw [State.propagateException_eq]
        exact ht
      · rw [State.propagateException_eq] at hlt
        exact absurd hlt (Nat.not_lt.mpr hge)

theorem Step.conserved (hstep : Step s l s') (hs : Sound s) (hl : l ≠ .reset) (hsh : s'.Shared)
    (h : s.Shared → s.Conserved) : s'.Conserved := by
  cases hstep with
  | call f o =>
      have he : Edit none 0 False s (s.newCoro (.user (P.start f)) o) :=
        .newCoro _ o (.user f) fun hf => hf.elim
      have hsh0 := he.ext.shared_old hs.tidy.fresh hsh
      exact he.conserved hs hsh0 (h hsh0)
  | bind a =>
      have he : Edits none 0 False s (s.bind a) := bind_call_edits hs.tidy a fun hf => hf.elim
      exact Edits.conserved he hs (by simp) hsh (h ((Edits.ext he).shared_old hs.tidy.fresh hsh))
  | elsewhere c henv =>
      have hsh0 : s.Shared := hsh.update_old rfl rfl
      exact (h hsh0).quiet (Quiet.setCoro s c { s.coros c with env := .elsewhere } rfl rfl)
  | step t _ htop hst =>
      have hst := step_stepped hst
      exact hst.conserved (h (hst.shared_old hsh))
  | advance deadline =>
      exact (h (hsh.congr rfl)).moved (fun t _ hl => .inl hl) (fun t ht => ht)
        fun t hge hlt => absurd hlt (Nat.not_lt.mpr hge)
  | exec c _ hex =>
      obtain ⟨f, hst, hran⟩ := exec_ran hs.tidy hex fun _ _ hf => hf.elim
      have hs0 : Sound (s.ran f) := hs.quiet (.of_coros rfl) rfl rfl rfl hs.started.current
      have hq : Quiet s (s.ran f) := .of_coros rfl
      exact (hran.conserved hs0 hsh fun hsh0 => (h (hsh0.congr rfl)).quiet hq).2
  | reset => exact absurd rfl hl

theorem State.Conserved.init (m : P.Memory) : (State.init m : State P).Conserved :=
  fun _ ht => absurd ht (Nat.not_lt_zero _)

/-- What is left of the tokens of a run, if no process is unique. -/
theorem Reachable.conserved {C : State P → Label P → Prop} (h : Reachable C s)
    (hC : ∀ s l, C s l → l ≠ .reset) (hsh : s.Shared) : s.Conserved := by
  obtain ⟨m, h⟩ := h
  have hall : Sound s ∧ (s.Shared → s.Conserved) := by
    refine h.invariant (I := fun s => Sound s ∧ (s.Shared → s.Conserved)) ?_
      ⟨.init m, fun _ => .init m⟩
    rintro s l s' ⟨hs, h⟩ hc hstep
    exact ⟨hstep.sound hs, fun hsh => hstep.conserved hs (hC s l hc) hsh h⟩
  exact hall.2 hsh

/-- In every run without `reset` in which no process is unique, with exceptions, failing awaits and
re-entrant steps, every token that was created is in exactly one place, and one that has been left
behind with its handler stays there. -/
theorem no_token_lost (h : Reachable (fun _ l => l ≠ .reset) s) (hsh : s.Shared) :
    (∀ t < s.nextToken, ∃! o, s.HeldBy t o) ∧
      ∀ t, s.HeldBy t .loose → ∀ s', Transition.Runs Step (fun _ l => l ≠ .reset) s s' →
        s'.HeldBy t .loose ∧ t ∉ s'.executed := by
  refine ⟨fun t ht => ?_, fun t ht s' hr => ?_⟩
  · obtain ⟨gone, own, ho⟩ := h.sound.owned
    have hheld : ∃ o, s.HeldBy t o := by
      cases h.conserved (fun _ _ hl => hl) hsh t ht with
      | inl hlive => exact hlive.heldBy
      | inr hex => exact ⟨.executed, hex⟩
    obtain ⟨o, hto⟩ := hheld
    exact ⟨o, hto, fun o' hto' => ho.heldBy_unique hto' hto⟩
  · have hall : Sound s' ∧ s'.Stranded t :=
      hr.invariant (I := fun s => Sound s ∧ s.Stranded t)
        (fun _ _ _ ⟨hs, hst⟩ _ hstep => ⟨hstep.sound hs, hstep.stranded hs hst⟩) ⟨h.sound, ht⟩
    obtain ⟨gone, own, ho⟩ := hall.1.owned
    exact ⟨hall.2, (ho.stranded_notMem hall.2).2⟩

namespace failing

theorem child_reachable : Reachable (fun _ l => l ≠ .reset) child := by
  have hbound : Reachable (fun _ l => l ≠ .reset) bound :=
    (Reachable.init (P := failing) ()).next (l := .bind (.call false {})) (by simp)
      (.bind _ _ rfl (by decide))
  have hstarted : Reachable (fun _ l => l ≠ .reset) started :=
    hbound.next (by simp) (.step _ 0 _ (State.isTop_singleton rfl) rfl (by decide))
  have hwaiting : Reachable (fun _ l => l ≠ .reset) waiting :=
    hstarted.next (by simp) waiting_step
  exact hwaiting.next (by simp) (.step _ 2 child (State.isTop_singleton rfl) rfl (by decide))

theorem reported_reachable : Reachable (fun _ l => l ≠ .reset) reported :=
  (child_reachable.next (by simp) (.exec _ 1 failed rfl (by decide))).next (by simp)
    (.step _ 4 _ (State.isTop_singleton rfl) rfl (by decide))

theorem reported_shared : reported.Shared
  | 0 => rfl
  | 1 => rfl
  | _ + 2 => rfl

end failing

/-- Token 3 is the output token of an `all_of` whose only child, token 4, has failed. -/
theorem no_token_lost_failing : (∃! o, failing.reported.HeldBy 3 o) ∧
    failing.reported.HeldBy 3 .loose ∧
      ∀ s', Transition.Runs Step (fun _ l => l ≠ .reset) failing.reported s' →
        3 ∉ s'.executed := by
  have h := no_token_lost failing.reported_reachable failing.reported_shared
  have hkids : ∀ u < failing.reported.nextToken,
      (failing.reported.tokens u).handler = some 0 → u ∈ failing.reported.executed := by decide
  have hloose : failing.reported.HeldBy 3 .loose :=
    .output 0 3 rfl fun u hu hh hex => absurd (hkids u hu hh) hex
  exact ⟨h.1 3 (by decide), hloose, fun s' hr => (h.2 3 hloose s' hr).2⟩

end Cxxdes
