-- SUMMARY: The processes that bound each other: parent chains end, repeat nothing, and end outside.
import Cxxdes.Await.Registered
import Cxxdes.Logic.Walk
import Cxxdes.Run.Current
import Cxxdes.Run.Replay
import Cxxdes.Run.Statuses

/-!
# Parents

`bind_` makes the current process the parent of the process it binds, and nothing else
changes a parent. A process is bound once and after its parent, so the numbers of the start
tokens get smaller along a chain of parents. A chain ends at a process that was bound while
none was current: from outside, unless a body has called a `step()` that resumes a process and
has made `current_coroutine()` null in the middle of that body.
-/

namespace Cxxdes

variable {P : Program} {s s' s'' : State P}

/-! ### Binding -/

/-- What a piece of a transition does to parents: a process that is bound keeps its own, and one
that gets bound has the current process as parent and a new start token. -/
structure Adopts (s s' : State P) : Prop where
  nextToken : s.nextToken ≤ s'.nextToken
  kept : ∀ c, (s.coros c).env = .here → (s'.coros c).env = .here ∧
    (s'.coros c).parent = (s.coros c).parent ∧ (s'.coros c).startToken = (s.coros c).startToken
  bound : ∀ c, (s.coros c).env ≠ .here → (s'.coros c).env = .here →
    (s'.coros c).parent = s.current ∧
      ∃ t, (s'.coros c).startToken = some t ∧ s.nextToken ≤ t ∧ t < s'.nextToken
  unbound : ∀ c, (s'.coros c).env ≠ .here → (s.coros c).parent = none →
    (s'.coros c).parent = none

namespace Adopts

/-- A change that binds no process. -/
theorem same (hn : s.nextToken ≤ s'.nextToken) (henv : ∀ c, (s'.coros c).env = (s.coros c).env)
    (hpar : ∀ c, (s'.coros c).parent = (s.coros c).parent)
    (htkn : ∀ c, (s'.coros c).startToken = (s.coros c).startToken) : Adopts s s' where
  nextToken := hn
  kept c h := ⟨(henv c).trans h, hpar c, htkn c⟩
  bound c hne h := absurd ((henv c).symm.trans h) hne
  unbound c _ h := (hpar c).trans h

/-- A change of one process that does not bind it. -/
theorem update {c : CoroId} {d : CoroData P} (hn : s.nextToken ≤ s'.nextToken)
    (hco : s'.coros = Function.update s.coros c d) (henv : d.env = (s.coros c).env)
    (hpar : d.parent = (s.coros c).parent) (htkn : d.startToken = (s.coros c).startToken) :
    Adopts s s' := by
  apply same hn <;>
  · intro c'
    rw [hco]
    cases decEq c' c with
    | isTrue hc => subst hc; rw [Function.update_self]; assumption
    | isFalse hc => rw [Function.update_of_ne hc]

theorem trans (h : Adopts s s') (h' : Adopts s' s'') (hcur : s'.current = s.current) :
    Adopts s s'' where
  nextToken := h.nextToken.trans h'.nextToken
  kept c hc := by
    obtain ⟨h1, h2, h3⟩ := h.kept c hc
    obtain ⟨h4, h5, h6⟩ := h'.kept c h1
    exact ⟨h4, h5.trans h2, h6.trans h3⟩
  bound c hne hc := by
    cases decEq (s'.coros c).env .here with
    | isTrue h1 =>
        obtain ⟨hp, t, ht, hle, hlt⟩ := h.bound c hne h1
        obtain ⟨-, h5, h6⟩ := h'.kept c h1
        exact ⟨h5.trans hp, t, h6.trans ht, hle, Nat.lt_of_lt_of_le hlt h'.nextToken⟩
    | isFalse h1 =>
        obtain ⟨hp, t, ht, hle, hlt⟩ := h'.bound c h1 hc
        exact ⟨hp.trans hcur, t, ht, h.nextToken.trans hle, hlt⟩
  unbound c hne hp :=
    h'.unbound c hne (h.unbound c (fun h1 => hne (h'.kept c h1).1) hp)

theorem edit {cd : Option CoroId} {n : TokenId} {nn : Prop} (hf : s.Fresh)
    (he : Edit cd n nn s s') : Adopts s s' := by
  have hn := he.ext.nextToken
  cases he with
  | newCoro f o =>
      have hnew : (s.coros s.nextCoro).env = .elsewhere := by rw [hf _ (Nat.le_refl _)]
      have hold : ∀ c ≠ s.nextCoro, (s.newCoro f o).coros c = s.coros c := fun c hc =>
        Function.update_of_ne hc ..
      have hself : (s.newCoro f o).coros s.nextCoro = .called f o := Function.update_self ..
      refine ⟨hn, fun c h => ?_, fun c hne h => ?_, fun c _ h => ?_⟩
      · have hc : c ≠ s.nextCoro := by
          rintro rfl
          rw [hnew] at h
          cases h
        rw [hold c hc]
        exact ⟨h, rfl, rfl⟩
      · cases decEq c s.nextCoro with
        | isTrue hc => rw [hc, hself] at h; cases h
        | isFalse hc => rw [hold c hc] at h; exact absurd h hne
      · cases decEq c s.nextCoro with
        | isTrue hc => rw [hc, hself]; rfl
        | isFalse hc => rw [hold c hc]; exact h
  | startCoro c0 priority henv =>
      have hold : ∀ c ≠ c0, (s.startCoro c0 priority).coros c = s.coros c := fun c hc =>
        Function.update_of_ne hc ..
      have hself : (s.startCoro c0 priority).coros c0 = (s.coros c0).started s.current
          (resolvePriority (s.coros c0).priority priority) s.nextToken := Function.update_self ..
      refine ⟨hn, fun c h => ?_, fun c hne h => ?_, fun c hne h => ?_⟩
      · have hc : c ≠ c0 := by
          rintro rfl
          rw [henv] at h
          cases h
        rw [hold c hc]
        exact ⟨h, rfl, rfl⟩
      · cases decEq c c0 with
        | isTrue hc =>
            rw [hc, hself]
            exact ⟨rfl, s.nextToken, rfl, Nat.le_refl _, Nat.lt_succ_self _⟩
        | isFalse hc => rw [hold c hc] at h; exact absurd h hne
      · cases decEq c c0 with
        | isTrue hc => rw [hc, hself] at hne; exact absurd rfl hne
        | isFalse hc => rw [hold c hc]; exact h
  | newCompletion p =>
      exact update (d := (s.coros p.coro).completionToken s.nextToken) hn rfl rfl rfl rfl
  | wake evt =>
      have hco : (s.wake evt).coros = s.coros := by simp [State.wake]
      exact same hn (fun c => by rw [hco]) (fun c => by rw [hco]) fun c => by rw [hco]
  | timeout | newWaiter | newHandler | install | setObject =>
      exact same hn (fun _ => rfl) (fun _ => rfl) fun _ => rfl

theorem refl (s : State P) : Adopts s s :=
  same (Nat.le_refl _) (fun _ => rfl) (fun _ => rfl) fun _ => rfl

theorem edits {cd : Option CoroId} {n : TokenId} {nn : Prop} (hs : s.Tidy nn)
    (he : Edits cd n nn s s') : Adopts s s' := by
  induction he with
  | refl => exact refl s
  | tail h1 he ih => exact ih.trans (edit (Edits.tidy h1 hs).fresh he) (Edits.ext h1).current

/-- Changes outside the processes. -/
theorem congr (hn : s.nextToken ≤ s'.nextToken) (hco : s'.coros = s.coros) : Adopts s s' :=
  same hn (fun c => by rw [hco]) (fun c => by rw [hco]) fun c => by rw [hco]

theorem continues {nn : Prop} {c : CoroId} (h : Continues nn c s s') : Adopts s s' := by
  obtain ⟨f, hco⟩ := h.coros
  exact update (d := { s.coros c with status := .running f }) (Nat.le_of_eq h.quiet.nextToken.symm)
    hco rfl rfl rfl

theorem doReturn (s : State P) (c : CoroId) (r : Result P.Value P.Error) :
    Adopts s (s.doReturn c r) := by
  rw [State.doReturn_eq]
  exact update (d := { s.coros c with completionTokens := [], status := .finished }) (by simp)
    rfl rfl rfl rfl

theorem stepped {t : TokenId} (h : Stepped s t s') : Adopts s s' := by
  cases h with
  | start c f =>
      exact update (d := { s.coros c with status := .running f }) (Nat.le_refl _) rfl rfl rfl rfl
  | resume c a k r s1 hh hc hst hr =>
      -- `await_resume` binds nothing
      have he : Edits none 0 False { s.pop t with current := some c } s1 := awaitResume_edits_of hr
      have hco := awaitResume_coros a { s.pop t with current := some c }
      rw [hr] at hco
      have hco : s1.coros = s.coros := hco
      exact update (d := { s.coros c with status := .running (k r) }) he.ext.nextToken
        (by rw [← hco]; rfl) rfl rfl rfl
  | rethrow | fire | count | raise | skip => exact congr (Nat.le_refl _) rfl

theorem ran {nn : Prop} {c : CoroId} {act : Action P.User P.Frame P.Value P.Error}
    (hs : s.Tidy nn) (h : Ran nn s c act s') : Adopts s s' := by
  cases h with
  | continues s1 _ he hcont => exact (edits hs he).trans (continues hcont) he.ext.current
  | throws a k sm s1 _ hact hthrow hm he hcont =>
      have h1 := (edits hs hm).trans (edits (Edits.tidy hm hs) he) hm.ext.current
      exact h1.trans (continues hcont) (he.ext.current.trans hm.ext.current)
  | suspends a a' k sm s1 hact hm he =>
      have h1 := (edits hs hm).trans (edits (Edits.tidy hm hs) he) hm.ext.current
      refine h1.trans ?_ (he.ext.current.trans hm.ext.current)
      have hn := (Quiet.suspend s1 c a' k).nextToken
      exact update (d := { s1.coros c with status := .suspended a' k }) (Nat.le_of_eq hn.symm)
        (suspend_coros s1 c a' k) rfl rfl rfl
  | returns v =>
      have h1 : Adopts s (s.setCoro c { s.coros c with returnValue := v }) :=
        update (Nat.le_refl _) rfl rfl rfl rfl
      exact h1.trans (doReturn _ c _) rfl
  | fails e =>
      have h1 : Adopts s (s.propagateException c e) := by
        rw [State.propagateException_eq]
        exact congr (Nat.le_refl _) rfl
      exact h1.trans (doReturn _ c _) (by rw [State.propagateException_eq])

end Adopts

theorem Step.adopts {l : Label P} (hstep : Step s l s') (hs : s.Tidy False) : Adopts s s' := by
  cases hstep with
  | call f o =>
      have he : Edit none 0 False s (s.newCoro (.user (P.start f)) o) :=
        .newCoro _ o (.user f) (fun hf => hf.elim)
      exact .edit hs.fresh he
  | bind a =>
      have he : Edits none 0 False s (s.bind a) := bind_call_edits hs a (fun hf => hf.elim)
      exact .edits hs he
  | elsewhere c henv =>
      have hself : (s.setCoro c { s.coros c with env := .elsewhere }).coros c =
          { s.coros c with env := .elsewhere } := Function.update_self ..
      have hold : ∀ c' ≠ c, (s.setCoro c { s.coros c with env := .elsewhere }).coros c' =
          s.coros c' := fun c' hc => Function.update_of_ne hc ..
      refine ⟨Nat.le_refl _, fun c' h => ?_, fun c' hne h => ?_, fun c' _ h => ?_⟩
      · have hc : c' ≠ c := by
          rintro rfl
          rw [henv] at h
          cases h
        rw [hold c' hc]
        exact ⟨h, rfl, rfl⟩
      · cases decEq c' c with
        | isTrue hc => rw [hc, hself] at h; cases h
        | isFalse hc => rw [hold c' hc] at h; exact absurd h hne
      · cases decEq c' c with
        | isTrue hc => rw [hc, hself]; rw [hc] at h; exact h
        | isFalse hc => rw [hold c' hc]; exact h
  | step t _ htop hst => exact .stepped (step_stepped hst)
  | advance deadline => exact .congr (Nat.le_refl _) rfl
  | exec c _ hex =>
      obtain ⟨f, hst, hran⟩ := exec_ran hs hex fun _ _ hf => hf.elim
      have hs1 : (s.ran f).Tidy False := ⟨hs.fresh, hs.object⟩
      have h1 : Adopts (s.ran f) s' := .ran hs1 hran
      exact ⟨h1.nextToken, h1.kept, h1.bound, h1.unbound⟩
  | reset =>
      unfold State.reset
      rw [State.destroyAll_eq]
      refine .same (Nat.le_refl _) (fun c => ?_) (fun c => ?_) fun c => ?_ <;>
      · dsimp only
        split <;> rfl

/-- `step()` itself binds nothing: a resumed body does, or the owner of the environment. -/
theorem Stepped.env {t : TokenId} (h : Stepped s t s') (c : CoroId) :
    (s'.coros c).env = (s.coros c).env := by
  have hupd : ∀ (c0 : CoroId) (st : Status P),
      (Function.update s.coros c0 { s.coros c0 with status := st } c).env = (s.coros c).env := by
    intro c0 st
    cases decEq c c0 with
    | isTrue hc => subst hc; rw [Function.update_self]
    | isFalse hc => rw [Function.update_of_ne hc]
  cases h with
  | start c0 f => exact hupd c0 _
  | resume c0 a k r s1 hh hc hst hr =>
      have hco := awaitResume_coros a { s.pop t with current := some c0 }
      rw [hr] at hco
      have hco : s1.coros = s.coros := hco
      have h1 := hupd c0 (.running (k r))
      rw [← hco] at h1
      exact h1.trans (by rw [hco])
  | rethrow | fire | count | raise | skip => rfl

theorem Step.binds {l : Label P} (hstep : Step s l s') {c : CoroId}
    (hne : (s.coros c).env ≠ .here) (hc : (s'.coros c).env = .here) :
    (∃ a, l = .bind a) ∨ ∃ c' f, (s.coros c').status = .running f := by
  cases hstep with
  | bind a => exact .inl ⟨a, rfl⟩
  | exec c' _ hex =>
      obtain ⟨f, hst, -⟩ := exec_acted hex
      exact .inr ⟨c', f, hst⟩
  | call f o =>
      simp only [State.newCoro] at hc
      cases decEq c s.nextCoro with
      | isTrue h => subst h; rw [Function.update_self] at hc; cases hc
      | isFalse h => rw [Function.update_of_ne h] at hc; exact absurd hc hne
  | elsewhere c0 henv =>
      simp only [State.setCoro] at hc
      cases decEq c c0 with
      | isTrue h => subst h; rw [Function.update_self] at hc; cases hc
      | isFalse h => rw [Function.update_of_ne h] at hc; exact absurd hc hne
  | step t _ htop hst => exact absurd ((step_stepped hst).env c ▸ hc) hne
  | advance deadline => exact absurd hc hne
  | reset =>
      unfold State.reset at hc
      rw [State.destroyAll_eq] at hc
      dsimp only at hc
      split at hc <;> exact absurd hc hne

/-! ### Chains of parents -/

/-- `coroutine_data::parent()`. -/
def State.parent (s : State P) (c : CoroId) : Option CoroId := (s.coros c).parent

/-- The loop of `stack::stacktrace`: `h` and the parents above it, if they are at most `n`. -/
def State.stacktrace (s : State P) (n : Nat) (h : Option CoroId) : Option (List CoroId) :=
  Walk.walk s.parent n h

/-- When a process was bound: the number of its start token. -/
def State.bindOrder (s : State P) (c : CoroId) : Nat := (s.coros c).startToken.getD 0

/-- Parents are bound before the processes they are parents of. -/
structure Lineage (s : State P) : Prop where
  unbound : ∀ c, (s.coros c).env ≠ .here → s.parent c = none
  bound : ∀ c, (s.coros c).env = .here → s.bindOrder c < s.nextToken
  parent : ∀ c p, s.parent c = some p → (s.coros p).env = .here ∧ s.bindOrder p < s.bindOrder c

namespace Lineage

theorem init (m : P.Memory) : Lineage (State.init m : State P) where
  unbound _ _ := rfl
  bound _ h := by cases h
  parent _ _ h := by cases h

theorem adopts (h : Lineage s) (hcur : ∀ c, s.current = some c → (s.coros c).env = .here)
    (ha : Adopts s s') : Lineage s' := by
  have hold : ∀ c, (s.coros c).env = .here → s'.bindOrder c = s.bindOrder c := fun c hc =>
    congrArg (Option.getD · 0) (ha.kept c hc).2.2
  have hnew : ∀ c, (s.coros c).env ≠ .here → (s'.coros c).env = .here →
      s.nextToken ≤ s'.bindOrder c ∧ s'.bindOrder c < s'.nextToken := by
    intro c hne hc
    obtain ⟨-, t, ht, hle, hlt⟩ := ha.bound c hne hc
    have ho : s'.bindOrder c = t := by rw [State.bindOrder, ht]; rfl
    rw [ho]
    exact ⟨hle, hlt⟩
  have hunb : ∀ c, (s'.coros c).env ≠ .here → s'.parent c = none := fun c hne =>
    ha.unbound c hne (h.unbound c fun hc => hne (ha.kept c hc).1)
  refine ⟨hunb, fun c hc => ?_, fun c p hp => ?_⟩
  · cases decEq (s.coros c).env .here with
    | isTrue h0 => rw [hold c h0]; exact Nat.lt_of_lt_of_le (h.bound c h0) ha.nextToken
    | isFalse h0 => exact (hnew c h0 hc).2
  · have hc : (s'.coros c).env = .here := by
      cases decEq (s'.coros c).env .here with
      | isTrue hc => exact hc
      | isFalse hc => rw [hunb c hc] at hp; cases hp
    cases decEq (s.coros c).env .here with
    | isTrue h0 =>
        obtain ⟨h1, h2⟩ := h.parent c p ((ha.kept c h0).2.1.symm.trans hp)
        exact ⟨(ha.kept p h1).1, by rw [hold p h1, hold c h0]; exact h2⟩
    | isFalse h0 =>
        -- the parent is the current process, which was bound before
        have h1 := hcur p ((ha.bound c h0 hc).1.symm.trans hp)
        refine ⟨(ha.kept p h1).1, ?_⟩
        rw [hold p h1]
        exact Nat.lt_of_lt_of_le (h.bound p h1) (hnew c h0 hc).1

theorem ranked (h : Lineage s) : Walk.Ranked s.parent s.bindOrder := fun c p hp =>
  (h.parent c p hp).2

theorem above (h : Lineage s) {c r : CoroId} (hc : (s.coros c).env = .here)
    (hr : Relation.ReflTransGen (Walk.Above s.parent) c r) : (s.coros r).env = .here := by
  induction hr with
  | refl => exact hc
  | tail _ hp => exact (h.parent _ _ hp).1

end Lineage

theorem Reachable.lineage {C : State P → Label P → Prop} (h : Reachable C s) : Lineage s := by
  obtain ⟨m, h⟩ := h
  have hboth : Sound s ∧ Lineage s := by
    refine h.invariant (I := fun s => Sound s ∧ Lineage s) ?_ ⟨.init m, .init m⟩
    rintro s l s' ⟨hs, hl⟩ hc hstep
    exact ⟨hstep.sound hs, hl.adopts hs.started.current (hstep.adopts hs.tidy)⟩
  exact hboth.2

/-! ### Outside -/

/-- No body runs: control is outside of every `step()`. -/
def State.Outside (s : State P) : Prop :=
  ∀ c f, (s.coros c).status ≠ .running f

/-- The process `current_coroutine()` is running. -/
def State.CurrentRuns (s : State P) : Prop :=
  ∀ c, s.current = some c → ∃ f, (s.coros c).status = .running f

theorem State.CurrentRuns.outside (h : s.CurrentRuns) (ho : s.Outside) : s.current = none := by
  cases hc : s.current with
  | none => rfl
  | some c =>
      obtain ⟨f, hf⟩ := h c hc
      exact absurd hf (ho c f)

theorem Step.currentRuns {l : Label P} (hstep : Step s l s') (hs : s.Tidy False)
    (h : s.CurrentRuns) : s'.CurrentRuns := by
  have hedits : ∀ {n : TokenId} {cd : Option CoroId} {nn : Prop} {s s' : State P},
      s.Tidy nn → s.CurrentRuns → Edits cd n nn s s' → s'.CurrentRuns := by
    intro n cd nn s s' hs h he c hc
    obtain ⟨f, hf⟩ := h c (he.ext.current.symm.trans hc)
    exact ⟨f, (he.ext.coro c (hs.fresh.lt_of_status (by simp [hf]))).status.trans hf⟩
  have hupdate : ∀ {s s' : State P} {c : CoroId} {f : P.Frame} {d : CoroData P},
      s.CurrentRuns → s'.current = s.current → s'.coros = Function.update s.coros c d →
      d.status = .running f → s'.CurrentRuns := by
    intro s s' c f d h hcur hco hd c' hc'
    rw [hco]
    cases decEq c' c with
    | isTrue hcc => rw [hcc, Function.update_self]; exact ⟨f, hd⟩
    | isFalse hcc => rw [Function.update_of_ne hcc]; exact h c' (hcur.symm.trans hc')
  cases hstep with
  | call f o =>
      have he : Edits none 0 False s (s.newCoro (.user (P.start f)) o) :=
        .single (.newCoro _ o (.user f) (fun hf => hf.elim))
      exact hedits hs h he
  | bind a =>
      have he : Edits none 0 False s (s.bind a) := bind_call_edits hs a (fun hf => hf.elim)
      exact hedits hs h he
  | elsewhere c henv =>
      intro c' hc'
      obtain ⟨f, hf⟩ := h c' hc'
      refine ⟨f, ?_⟩
      simp only [State.setCoro]
      cases decEq c' c with
      | isTrue hcc => subst hcc; rw [Function.update_self]; exact hf
      | isFalse hcc => rw [Function.update_of_ne hcc]; exact hf
  | step t _ htop hst =>
      cases step_stepped hst with
      | start c f =>
          rintro _ ⟨⟩
          exact ⟨f, by simp [State.log, State.setStatus, State.setCoro]⟩
      | resume c a k r s1 hh hc hst hr =>
          have he : Edits none 0 False { s.pop t with current := some c } s1 :=
            awaitResume_edits_of hr
          intro c' hc'
          have hcc : c' = c := (Option.some.inj (he.ext.current.symm.trans hc')).symm
          exact ⟨k r, by simp [hcc, State.deliver, State.log, State.setStatus, State.setCoro]⟩
      | rethrow | fire | count | raise | skip => exact h
  | advance deadline => exact h
  | exec c _ hex =>
      obtain ⟨f, hst, hran⟩ := exec_ran hs hex fun _ _ hf => hf.elim
      have h1 : (s.ran f).CurrentRuns := h
      have hs1 : (s.ran f).Tidy False := ⟨hs.fresh, hs.object⟩
      cases hran with
      | continues s1 _ he hcont =>
          obtain ⟨g, hco⟩ := hcont.coros
          exact hupdate (hedits hs1 h1 he) hcont.current hco rfl
      | throws a k sm s1 _ hact hthrow hm he hcont =>
          obtain ⟨g, hco⟩ := hcont.coros
          exact hupdate (hedits (Edits.tidy hm hs1) (hedits hs1 h1 hm) he) hcont.current hco rfl
      | suspends a a' k sm s1 hact hm he =>
          intro c' hc'
          rw [suspend_current] at hc'
          cases hc'
      | returns | fails =>
          intro c' hc'
          rw [State.doReturn_eq] at hc'
          cases hc'
  | reset hcur =>
      intro c hc
      unfold State.reset at hc
      rw [State.destroyAll_eq] at hc
      cases hcur.symm.trans hc

theorem Reachable.currentRuns {C : State P → Label P → Prop} (h : Reachable C s) :
    s.CurrentRuns := by
  obtain ⟨m, hr⟩ := h
  have hboth : s.Tidy False ∧ s.CurrentRuns := by
    refine hr.invariant (I := fun s => s.Tidy False ∧ s.CurrentRuns) ?_
      ⟨(Sound.init m).tidy, fun c hc => by cases hc⟩
    rintro s l s' ⟨hs, hrun⟩ hc hstep
    exact ⟨hstep.tidy (by simp) hs, hstep.currentRuns hs hrun⟩
  exact hboth.2

/-- A `step()` that resumes a process is called from outside. -/
def State.Unnested (s : State P) (l : Label P) : Prop :=
  ∀ t, l = .step t → s.Resumes t → s.current = none

/-- Then no process is current exactly when no body runs. -/
theorem Reachable.current_iff (h : Reachable State.Unnested s) :
    s.current = none ↔ s.Outside := by
  refine ⟨fun hcur c f hf => ?_, h.currentRuns.outside⟩
  have h1 := h.sole (fun _ t hC => hC t rfl) c f hf
  rw [hcur] at h1
  cases h1

/-- Process `c` was bound in a run to `s` while no process was running, by
`environment::bind`. -/
def State.BoundOutside (s : State P) (c : CoroId) : Prop :=
  ∃ s1 a s2, Reachable State.Unnested s1 ∧ Step s1 (.bind a) s2 ∧
    Transition.Runs Step State.Unnested s2 s ∧ (s1.coros c).env ≠ .here ∧
    (s2.coros c).env = .here ∧ s1.current = none ∧ s1.Outside

theorem Reachable.boundOutside (h : Reachable State.Unnested s) {c : CoroId}
    (hc : (s.coros c).env = .here) (hp : s.parent c = none) : s.BoundOutside c := by
  obtain ⟨m, h⟩ := h
  induction h with
  | refl => cases hc
  | @tail s1 s2 hr hvia ih =>
      obtain ⟨l, hl, hstep⟩ := hvia
      have h1 : Reachable State.Unnested s1 := ⟨m, hr⟩
      have ha := hstep.adopts h1.sound.tidy
      cases decEq (s1.coros c).env .here with
      | isTrue h0 =>
          obtain ⟨s3, a, s4, h3, hstep3, hr3, hrest⟩ :=
            ih h0 ((ha.kept c h0).2.1.symm.trans hp)
          exact ⟨s3, a, s4, h3, hstep3, hr3.tail hl hstep, hrest⟩
      | isFalse h0 =>
          have hcur : s1.current = none := (ha.bound c h0 hc).1.symm.trans hp
          have hidle := h1.current_iff.mp hcur
          cases hstep.binds h0 hc with
          | inl hb =>
              obtain ⟨a, rfl⟩ := hb
              exact ⟨s1, a, s2, h1, hstep, .refl s2, h0, hc, hcur, hidle⟩
          | inr hex =>
              obtain ⟨c', f, hf⟩ := hex
              exact absurd hf (hidle c' f)

/-- In every run, chains of parents are finite and visit no process twice. -/
theorem Reachable.stacktrace_ends {C : State P → Label P → Prop} (h : Reachable C s)
    (c : CoroId) : ∃ n l r, s.stacktrace n (some c) = some l ∧ l.Nodup ∧ l.getLast? = some r ∧
      s.parent r = none ∧ ((s.coros c).env = .here → (s.coros r).env = .here) := by
  have hl := h.lineage
  obtain ⟨l, hw⟩ := hl.ranked.ends (s.bindOrder c + 1) c (Nat.lt_succ_self _)
  obtain ⟨r, hlast, hnone⟩ := Walk.walk_last hw
  refine ⟨_, l, r, hw, hl.ranked.nodup hw, hlast, hnone, fun hc => ?_⟩
  exact hl.above hc (Walk.mem_walk hw (List.mem_of_getLast? hlast))

/-- If no body calls a `step()` that resumes a process: `current_coroutine()` is null when no body
runs, and only then; a process that gets bound has no parent exactly when no process is running,
and keeps what it has; and chains of parents are finite, visit no process twice, and end at a
process that was bound from outside. -/
theorem parent_chains_finite (h : Reachable State.Unnested s) :
    (s.current = none ↔ s.Outside) ∧
    (∀ l s' c, Step s l s' → (s.coros c).env ≠ .here → (s'.coros c).env = .here →
      (s'.parent c = none ↔ s.Outside)) ∧
    (∀ l s' c, Step s l s' → (s.coros c).env = .here → s'.parent c = s.parent c) ∧
    (∀ c, ¬ Relation.TransGen (Walk.Above s.parent) c c) ∧
    ∀ c, ∃ n l r, s.stacktrace n (some c) = some l ∧ l.Nodup ∧ l.getLast? = some r ∧
      s.parent r = none ∧ ((s.coros c).env = .here → s.BoundOutside r) := by
  refine ⟨h.current_iff, fun l s' c hstep hne hc => ?_, fun l s' c hstep hc => ?_,
    h.lineage.ranked.acyclic, fun c => ?_⟩
  · have hpar := ((hstep.adopts h.sound.tidy).bound c hne hc).1
    rw [State.parent, hpar]
    exact h.current_iff
  · exact ((hstep.adopts h.sound.tidy).kept c hc).2.1
  · obtain ⟨n, l, r, hw, hnodup, hlast, hnone, henv⟩ := h.stacktrace_ends c
    exact ⟨n, l, r, hw, hnodup, hlast, hnone, fun hc => h.boundOutside (henv hc) hnone⟩

/-- A process that awaits another one, and so on up to the fifth. -/
def stack : Program where
  User := Nat
  Body := Nat × Bool
  Memory := Unit
  Value := Unit
  Error := Unit
  start n := (n, false)
  next b m _ := (m, if b.2 || decide (4 ≤ b.1) then .coReturn none
    else .await (.call (b.1 + 1) {}) fun _ => (b.1, true))

/-- The fifth process of the stack is about to begin. -/
def stack.deep : State stack :=
  (State.init ()).after State.between
    [.bind (.call (0 : Nat) {}), .step 0, .exec 0, .step 2, .exec 1, .step 4, .exec 2, .step 6,
      .exec 3, .step 8]

theorem stack.deep_reachable : Reachable State.Unnested stack.deep :=
  .after (fun s l h t ht _ => s.between_spec l h t ht) _ _

example : stack.deep.stacktrace 5 (some 4) = some [4, 3, 2, 1, 0] := by decide +kernel

theorem parent_chains_finite_stack :
    ¬ stack.deep.Outside ∧ ∃ n l r, stack.deep.stacktrace n (some 4) = some l ∧ l.Nodup ∧
      l.getLast? = some r ∧ stack.deep.parent r = none ∧ stack.deep.BoundOutside r := by
  have hall := parent_chains_finite stack.deep_reachable
  refine ⟨fun hout => ?_, ?_⟩
  · exact absurd (hall.1.mpr hout) (by decide +kernel)
  · obtain ⟨n, l, r, hw, hnodup, hlast, hnone, hout⟩ := hall.2.2.2.2 4
    exact ⟨n, l, r, hw, hnodup, hlast, hnone, hout (by decide +kernel)⟩

/-- The first process of the stack runs, has called `step()`, and that has resumed another one,
which has ended. -/
def stack.orphaning : State stack :=
  (State.init ()).after (fun _ _ => true)
    [.bind (.call (0 : Nat) {}), .bind (.call (4 : Nat) {}), .step 0, .step 2, .exec 1]

/-- What it awaits now is bound while it is running, and has no parent. -/
theorem nested_step_orphans :
    ∃ (s s' : State stack) (l : Label stack) (c : CoroId),
      Reachable (fun _ _ => True) s ∧ Step s l s' ∧ (s.coros c).env ≠ .here ∧
        (s'.coros c).env = .here ∧ s'.stacktrace 1 (some c) = some [c] ∧ s'.parent c = none ∧
        s.current = none ∧ ¬ s.Outside := by
  have hmove : ∃ s', stack.orphaning.move (.exec 0) = some s' ∧ (s'.coros 2).env = .here ∧
      s'.stacktrace 1 (some 2) = some [2] ∧ s'.parent 2 = none := by
    have hsome : (stack.orphaning.move (.exec 0)).any (fun s' =>
        decide ((s'.coros 2).env = .here ∧ s'.stacktrace 1 (some 2) = some [2] ∧
          s'.parent 2 = none)) = true := by decide +kernel
    obtain ⟨s', hs', hall⟩ := (Option.any_eq_true _ _).mp hsome
    exact ⟨s', hs', of_decide_eq_true hall⟩
  obtain ⟨s', hs', henv, hwalk, hnone⟩ := hmove
  have hstep := State.move_step hs'
  have hnew : (stack.orphaning.coros 2).env ≠ .here := by decide +kernel
  refine ⟨stack.orphaning, s', .exec 0, 2, .after (fun _ _ _ => trivial) _ _, hstep, hnew, henv,
    hwalk, hnone, by decide +kernel, fun hout => ?_⟩
  cases hstep.binds hnew henv with
  | inl hb => exact hb.elim nofun
  | inr hrun =>
      obtain ⟨c, f, hf⟩ := hrun
      exact hout c f hf

end Cxxdes
