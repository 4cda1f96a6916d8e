-- SUMMARY: In every run, a started process has a completion token, unless a leaf was skipped.
import Cxxdes.Await.Leaves
import Cxxdes.Run.Replay
import Cxxdes.Run.Started

/-!
# Every started process reports

The end of a process goes to its completion tokens. In a run whose `co_await`s
skip no process that they start, a process that is bound and not complete
always has one.
-/

namespace Cxxdes

variable {P : Program} {s s' : State P}

/-- A state without orphans: every started process can report its end. -/
def State.Reporting (s : State P) : Prop :=
  ∀ d, ¬ s.Orphan d

/-- A `co_await` leaves no process that it starts without a completion token. -/
def Registering (s : State P) : Label P → Prop
  | .exec c => ∀ f a k, (s.coros c).status = .running f → s.next f = .await a k →
      Registers (s.ran f) ((a.wrap (s.ran f)).leaves (s.ran f)
        ((a.wrap (s.ran f)).readyIn (s.ran f)))
  | _ => True

theorem State.Reporting.congr (h : s.Reporting) (hco : s'.coros = s.coros) : s'.Reporting :=
  fun d hd => h d (hd.congr hco)

theorem State.Reporting.setStatus (h : s.Reporting) {c : CoroId} (st : Status P)
    (hst : (s.coros c).complete = false) : (s.setStatus c st).Reporting :=
  fun d hd => h d (hd.setStatus hst)

theorem doReturn_reporting (h : s.Reporting) (c : CoroId) (r : Result P.Value P.Error) :
    (s.doReturn c r).Reporting := by
  intro d hd
  rw [State.doReturn_eq] at hd
  by_cases hc : d = c
  · subst hc
    have hcomp := hd.2.1
    simp [CoroData.complete] at hcomp
  · exact h d (by simpa [State.Orphan, Function.update_of_ne hc] using hd)

theorem Stepped.reporting {t : TokenId} (hst : Stepped s t s') (h : s.Reporting) :
    s'.Reporting := by
  have hp : (s.pop t).Reporting := h
  cases hst with
  | start c f hh hc hst =>
      exact State.Reporting.setStatus (s := { s.pop t with current := some c }) hp _
        (complete_of_status (by simp [State.pop, hst]))
  | resume c a k r s1 hh hc hst hr =>
      have hco : s1.coros = s.coros := by
        have h1 := awaitResume_coros a { s.pop t with current := some c }
        rw [hr] at h1
        exact h1
      exact State.Reporting.setStatus (s := s1.log (.resumed c t (s.pop t).now))
        (h.congr hco) _ (complete_of_status (by simp [State.log, hco, hst]))
  | rethrow | fire | count | raise | skip => exact hp

theorem Acted.reporting {c : CoroId} {f : P.Frame}
    {act : Action P.User P.Frame P.Value P.Error} (hact : Acted s c act s') (hs : s.Tidy False)
    (hst : (s.coros c).status = .running f) (hcov : ∀ a k, act = .await a k → Covered s c a)
    (h : s.Reporting) : s'.Reporting := by
  have hinc : (s.coros c).complete = false := complete_of_status (by simp [hst])
  have hlt : c < s.nextCoro := hs.fresh.lt_of_status (by simp [hst])
  cases hact with
  | tau g => exact h.setStatus _ hinc
  | await a k => exact coAwait_orphan hs hlt hinc (hcov a k rfl) h
  | create g o k =>
      have hnew : (s.newCoro (.user (P.start g)) o).Reporting := fun d hd => h d (newCoro_orphan hd)
      refine hnew.setStatus _ ?_
      simpa [State.newCoro, Function.update_of_ne (Nat.ne_of_lt hlt)] using hinc
  | declare p k => exact State.Reporting.setStatus (s := s.newObject p) h _ hinc
  | move o k p hp => exact State.Reporting.setStatus (s := s.moveObject o) h _ hinc
  | moved o k r hr => exact State.Reporting.setStatus (s := s.moveObject o) h _ hinc
  | bind p k s1 hr =>
      have h1 : s1.Reporting := fun d hd => h d (detach_orphan p 0 (by rw [hr]; exact hd))
      have he : Edits none 0 False s _ := detach_edits hs.fresh p 0 (fun h => h.elim)
      rw [hr] at he
      exact h1.setStatus _ ((he.ext.complete hlt).trans hinc)
  | bindError p k e s1 hr =>
      have h1 : s1.Reporting := fun d hd => h d (detach_orphan p 0 (by rw [hr]; exact hd))
      have he : Edits none 0 False s _ := detach_edits hs.fresh p 0 (fun h => h.elim)
      rw [hr] at he
      exact h1.setStatus _ ((he.ext.complete hlt).trans hinc)
  | returns v =>
      refine doReturn_reporting (fun d hd => ?_) c _
      rcases hd.setCoro with hd' | hd'
      · exact h d hd'
      · subst hd'
        exact h d (by simpa [State.Orphan, State.setCoro, CoroData.complete] using hd)
  | fails e =>
      have h1 : (s.propagateException c e).Reporting := by
        rw [State.propagateException_eq]
        exact h.congr rfl
      exact doReturn_reporting h1 c _

theorem Step.reporting {l : Label P} (hstep : Step s l s') (hs : s.Tidy False)
    (hl : Registering s l) (h : s.Reporting) : s'.Reporting := by
  cases hstep with
  | call f o => exact fun d hd => h d (newCoro_orphan hd)
  | bind a => exact fun d hd => h d (toHandle_orphan (detach_orphan _ 0 hd))
  | elsewhere c henv =>
      intro d hd
      rcases hd.setCoro with hd' | hd'
      · exact h d hd'
      · subst hd'
        have henv' := hd.1
        simp [State.setCoro] at henv'
  | step t _ htop hst => exact (step_stepped hst).reporting h
  | advance deadline => exact h
  | exec c _ hex =>
      obtain ⟨f, hst, hact⟩ := exec_acted hex
      have hran : (s.ran f).Tidy False := ⟨hs.fresh, hs.object⟩
      exact hact.reporting hran hst (fun a k hak => (hl f a k hst hak).covered hran) h
  | reset =>
      intro d hd
      unfold State.reset at hd
      rw [State.destroyAll_eq] at hd
      have hcomp := hd.2.1
      by_cases hm : d ∈ s.managed
      · simp [hm, CoroData.complete] at hcomp
      · exact h d (by simpa [State.Orphan, hm] using hd)

theorem Reachable.reporting {C : State P → Label P → Prop} (h : Reachable C s)
    (hC : ∀ s l, C s l → Registering s l) : s.Reporting := by
  obtain ⟨m, h⟩ := h
  have hboth : s.Tidy False ∧ s.Reporting := by
    refine h.invariant (I := fun s => s.Tidy False ∧ s.Reporting) ?_ ?_
    · rintro s l s' ⟨hs, hrep⟩ hc hstep
      exact ⟨hstep.tidy (by simp) hs, hstep.reporting hs (hC s l hc) hrep⟩
    · exact ⟨⟨fun _ _ => rfl, by simp⟩, fun d hd => by cases hd.1⟩
  exact hboth.2

/-- The exception of a process that fails is carried by a token that is scheduled. -/
theorem fails_scheduled {c : CoroId} {e : Exn P.Error} (h : (s.coros c).completionTokens ≠ []) :
    ∃ t ∈ ((s.propagateException c e).doReturn c (.error e)).queue,
      (((s.propagateException c e).doReturn c (.error e)).tokens t).eptr = some e := by
  obtain ⟨t, ht⟩ := List.exists_mem_of_ne_nil _ h
  rw [State.doReturn_eq, State.propagateException_eq]
  refine ⟨t, by simp [ht], ?_⟩
  refine (State.releaseAll_fields _ _ t).2.2.trans ?_
  simp [ht]

/-- In every run whose `co_await`s skip no process that they start:
every process that is bound and not complete has a completion token, so none that
fails meets a null pointer or drops its exception. -/
theorem started_process_reports (h : Reachable Registering s) :
    (∀ c, (s.coros c).env = .here → (s.coros c).complete = false →
      (s.coros c).completionTokens ≠ []) ∧
    (∀ c, s.exec c ≠ .error .nullCompletionToken) ∧
    (∀ c f e s', (s.coros c).status = .running f → s.next f = .throw e → s.exec c = .ok s' →
      ∃ t ∈ s'.queue, (s'.tokens t).eptr = some e) := by
  have hrep : s.Reporting := h.reporting fun _ _ hl => hl
  have htok : ∀ c, (s.coros c).env = .here → (s.coros c).complete = false →
      (s.coros c).completionTokens ≠ [] := fun c henv hinc hnil => hrep c ⟨henv, hinc, hnil⟩
  have hrun : ∀ c f, (s.coros c).status = .running f → (s.coros c).completionTokens ≠ [] :=
    fun c f hst => htok c (h.started.env_of_running hst) (complete_of_status (by simp [hst]))
  refine ⟨htok, fun c he => ?_, fun c f e s' hst hthrow hex => ?_⟩
  · obtain ⟨⟨f, hst⟩, hnull⟩ := exec_null he
    simp only [State.nullCompletionToken, Bool.and_eq_true, List.isEmpty_iff] at hnull
    exact hrun c f hst hnull.2
  · obtain ⟨g, hg, hact⟩ := exec_acted hex
    obtain rfl : f = g := by rw [hst] at hg; cases hg; rfl
    rw [hthrow] at hact
    cases hact with
    | fails _ hnull => exact fails_scheduled (s := s.ran f) (hrun c f hst)

namespace relay

/-- What the bodies of `relay` await, evaluated: `joins` awaits a process that exists and is
bound here. -/
def registers (s : State relay) : Label relay → Bool
  | .exec c =>
    match (s.coros c).status with
    | .running (.user .joins) => decide (1 < s.nextCoro) && decide ((s.coros 1).env = .here)
    | .running (.user _) => true
    | _ => false
  | _ => true

theorem registers_spec (s : State relay) (l : Label relay) (h : registers s l = true) :
    Registering s l := by
  cases l with
  | exec c =>
      intro f a k hf hact
      simp only [registers, hf] at h
      cases f with
      | seq | raise => cases h
      | user b =>
          cases b with
          | polls =>
              cases hact
              refine .of_leaves ⟨.nil, fun o ho => by cases ho⟩ fun l hl => ?_
              rcases List.mem_cons.mp hl with rfl | hl
              · exact ⟨fun d hd => (by rcases hd with hd | hd <;> cases hd), fun _ => rfl⟩
              · obtain rfl := List.mem_singleton.mp hl
                exact ⟨fun d hd => (by rcases hd with hd | hd <;> cases hd), fun _ => rfl⟩
          | listens | works =>
              cases hact
              refine .of_leaves ⟨.nil, fun o ho => by cases ho⟩ fun l hl => ?_
              obtain rfl := List.mem_singleton.mp hl
              exact ⟨fun d hd => (by rcases hd with hd | hd <;> cases hd), fun _ => rfl⟩
          | joins =>
              cases hact
              obtain ⟨hlt, henv⟩ := Bool.and_eq_true_iff.mp h
              have hlt : 1 < s.nextCoro := of_decide_eq_true hlt
              have henv : (s.coros 1).env = .here := of_decide_eq_true henv
              refine .of_leaves ⟨.nil, fun o ho => by cases ho⟩ fun l hl => ?_
              obtain rfl := List.mem_singleton.mp hl
              refine ⟨fun d hd => ?_, ?_⟩
              · rcases hd with hd | hd <;> cases hd
                exact ⟨hlt, by rw [State.ran, henv]; simp⟩
              · rintro ⟨d, hd, hun⟩
                cases hd
                rw [State.ran, henv] at hun
                cases hun
          | ends => cases hact
  | call | bind | step | elsewhere | advance | reset => trivial

end relay

theorem started_process_reports_relay :
    ((relay.listening relay.registers).coros 0).completionTokens ≠ [] ∧
      ((relay.listening relay.registers).coros 1).completionTokens ≠ [] ∧
        ((relay.listening relay.registers).coros 2).completionTokens ≠ [] := by
  have h := started_process_reports (relay.listening_reachable relay.registers_spec)
  have hrun : ∀ c < 3, ((relay.listening relay.registers).coros c).env = .here ∧
      ((relay.listening relay.registers).coros c).complete = false := by decide +kernel
  have hreports := fun c hc => h.1 c (hrun c hc).1 (hrun c hc).2
  exact ⟨hreports 0 (by decide), hreports 1 (by decide), hreports 2 (by decide)⟩

/-- A process awaits `any_of(until(0), p)` with a unique process `p` that fails. -/
def skipper : Program where
  User := Nat
  Body := Nat
  Memory := Unit
  Value := Unit
  Error := Unit
  start := id
  next n m _ := (m, match n with
    | 0 => .await (.comp { cond := .anyOf }
        [.timeout false 0 PriorityConsts.inherit none, .call (2 : Nat) { unique := true }])
        fun _ => 1
    | 1 => .coReturn none
    | _ => .throw (.user ()))

namespace skipper

/-- The state after `c` has made one action. -/
def after (s : State skipper) (c : CoroId) : State skipper :=
  match s.exec c with
  | .ok s' => s'
  | .error _ => s

def bound : State skipper :=
  ((State.init ()).newCoro (.user (0 : Nat)) {}).bind (.coroutine { coro := 0 } none)

def started : State skipper :=
  ({ bound.pop 0 with current := some 0 }.setStatus 0 (.running (.user (0 : Nat)))).log
    (.started 0 0)

/-- The composition was ready at once, and the awaiting process has returned. -/
def returned : State skipper := after (after started 0) 0

/-- The unique process has been started. -/
def failing : State skipper :=
  ({ returned.pop 2 with current := some 1 }.setStatus 1 (.running (.user (2 : Nat)))).log
    (.started 1 0)

theorem returned_isTop : returned.IsTop 2 := by
  refine ⟨by decide, fun _ _ => ⟨by decide, fun _ u hu => ?_⟩⟩
  have hu : u ∈ [2, 1] := hu
  rcases List.mem_cons.mp hu with rfl | hu
  · decide
  · rw [List.mem_singleton.mp hu]; decide

theorem returned_reachable : Reachable (fun _ l => l ≠ .reset) returned := by
  have h0 : Reachable (fun _ l => l ≠ .reset) (State.init () : State skipper) :=
    .init (P := skipper) ()
  have h1 := h0.next (l := .call (0 : Nat) {}) (by simp) (.call _ _ _)
  have h2 : Reachable (fun _ l => l ≠ .reset) bound :=
    h1.next (l := .bind (.coroutine { coro := 0 } none)) (by simp) (.bind _ _ rfl (by decide))
  have h3 : Reachable (fun _ l => l ≠ .reset) started :=
    h2.next (l := .step 0) (by simp) (.step _ _ _ (State.isTop_singleton rfl) rfl (by decide))
  have h4 : Reachable (fun _ l => l ≠ .reset) (after started 0) :=
    h3.next (l := .exec 0) (by simp) (.exec _ _ _ rfl (by decide))
  exact h4.next (l := .exec 0) (by simp) (.exec _ _ _ rfl (by decide))

theorem failing_reachable : Reachable (fun _ l => l ≠ .reset) failing :=
  returned_reachable.next (l := .step 2) (by simp) (.step _ _ _ returned_isTop rfl (by decide))

end skipper

/-- A process that a ready composition has started has no completion token, and
its end dereferences a null pointer. -/
theorem skipped_process_cannot_report :
    (¬ ∀ (P : Program) (s : State P), Reachable (fun _ l => l ≠ .reset) s → s.current = none →
      ∀ c, (s.coros c).env = .here → (s.coros c).complete = false →
        (s.coros c).completionTokens ≠ []) ∧
    ¬ ∀ (P : Program) (s : State P), Reachable (fun _ l => l ≠ .reset) s →
      ∀ c, s.exec c ≠ .error .nullCompletionToken := by
  refine ⟨fun h => ?_, fun h => ?_⟩
  · exact h skipper _ skipper.returned_reachable rfl 1 rfl rfl rfl
  · exact h skipper _ skipper.failing_reachable 1 rfl

end Cxxdes
