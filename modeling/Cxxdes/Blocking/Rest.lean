-- SUMMARY: When nothing is pending, each process has ended or hangs on an event, on an empty any_of or on a process that hangs too.
import Cxxdes.Blocking.Families
import Cxxdes.Blocking.Holders
import Cxxdes.Logic.Cycle
import Cxxdes.Timing.Duration
import Mathlib.Order.Interval.Finset.Nat

/-!
# Environments at rest

`run()` ends when no token is pending. The processes that have not ended then are suspended, and
the token that would resume one of them can be followed, from child to child of the compositions it
is the output of, to an event, to another such process, or to an `any_of` without children. Where
only processes are left to wait for, they wait in a cycle.
-/

namespace Cxxdes

variable {P : Program} {s s' : State P} {c d : CoroId} {t : TokenId} {l : Label P}

/-! ### What runs keep -/

/-- What is known in every run without exceptions about those that wait. -/
structure Orderly (s : State P) : Prop where
  untroubled : Untroubled s
  sleepers : s.Sleepers
  starters : s.Starters
  emptied : s.Emptied
  families : s.Families

theorem Orderly.step (h : Orderly s) (hl : ExceptionFree s l) (hstep : Step s l s') :
    Orderly s' := by
  have hp := h.untroubled.plainly hl hstep
  exact ⟨h.untroubled.step hl hstep, hp.sleepers h.sleepers, hp.starters h.starters,
    hp.emptied h.emptied, hp.families h.families⟩

theorem Orderly.init (m : P.Memory) : Orderly (State.init m : State P) where
  untroubled := .init m
  sleepers c a k hst := by cases hst
  starters c f henv := by cases henv
  emptied _ _ := rfl
  families h out hout := by cases hout

theorem Reachable.orderly (h : Reachable ExceptionFree s) : Orderly s := by
  obtain ⟨m, h⟩ := h
  exact h.invariant (fun _ _ _ h hl hstep => h.step hl hstep) (.init m)

/-! ### Causes -/

/-- What keeps a process from going on. `nothing` is an `any_of` without children. -/
inductive Cause where
  | event (e : EventId)
  | process (d : CoroId)
  | nothing

/-- Token `t` will not be executed before something happens to the cause, which it is registered
with, or one of the tokens below it that have yet to report. -/
inductive State.HangsOn (s : State P) : TokenId → Cause → Prop where
  | event (e : EventId) (t : TokenId) (ht : t ∈ s.events e) : s.HangsOn t (.event e)
  | process (d : CoroId) (t : TokenId) (ht : t ∈ (s.coros d).completionTokens) :
      s.HangsOn t (.process d)
  | nothing (h : HandlerId) (t : TokenId) (hout : (s.handlers h).completionTkn = some t)
      (hcond : (s.handlers h).cond = .anyOf) (htotal : (s.handlers h).total = 0) :
      s.HangsOn t .nothing
  | child (h : HandlerId) (t u : TokenId) (cause : Cause)
      (hout : (s.handlers h).completionTkn = some t) (hh : (s.tokens u).handler = some h)
      (hex : u ∉ s.executed) (hu : s.HangsOn u cause) : s.HangsOn t cause

/-- Process `c` is suspended with a token that hangs on the cause. -/
def State.BlockedBy (s : State P) (c : CoroId) (cause : Cause) : Prop :=
  ∃ a k t, (s.coros c).status = .suspended a k ∧ a.token = some t ∧ s.HangsOn t cause

def State.WaitsOn (s : State P) (c d : CoroId) : Prop := s.BlockedBy c (.process d)

/-- Nothing is pending, and no body runs. -/
structure State.AtRest (s : State P) : Prop where
  queue : s.queue = []
  current : s.current = none

/-- `c` is a process of the environment that has not ended. -/
structure State.Unfinished (s : State P) (c : CoroId) : Prop where
  env : (s.coros c).env = .here
  complete : (s.coros c).complete = false

/-- An environment that is at rest, and in which no token is lost. -/
structure Idle (s : State P) : Prop where
  orderly : Orderly s
  conserved : s.Conserved
  rest : s.AtRest

namespace Idle

theorem suspended (h : Idle s) (hc : s.Unfinished c) :
    ∃ a k, (s.coros c).status = .suspended a k := by
  cases hst : (s.coros c).status with
  | suspended a k => exact ⟨a, k, rfl⟩
  | initial f =>
      -- its start token would be pending
      obtain ⟨t, ht, -⟩ := h.orderly.starters c f hc.env hst
      rw [h.rest.queue] at ht
      cases ht
  | running f =>
      have hcur := h.orderly.untroubled.single.running c f hst
      rw [h.rest.current] at hcur
      cases hcur
  | finished =>
      have hinc := hc.complete
      simp [CoroData.complete, hst] at hinc

/-- The processes that hold tokens have not ended. -/
theorem unfinished (h : Idle s) (ht : t ∈ (s.coros d).completionTokens) : s.Unfinished d where
  env := by
    by_contra hne
    rw [h.orderly.untroubled.single.sound.listed.silent d hne] at ht
    cases ht
  complete := complete_of_status fun hfin => by
    rw [h.orderly.emptied d hfin] at ht
    cases ht

/-- Every token hangs on something. The tokens below it are younger, and there are finitely many
of them. -/
theorem hangs (h : Idle s) (ht : t < s.nextToken) (hex : t ∉ s.executed) :
    ∃ cause, s.HangsOn t cause ∧ ∀ d, cause = .process d → s.Unfinished d := by
  induction hn : s.nextToken - t using Nat.strong_induction_on generalizing t with
  | _ n ih =>
  rcases (h.conserved t ht).resolve_right hex with hq | ⟨e, he⟩ | ⟨d, hd⟩ | ⟨i, hi⟩
  · rw [h.rest.queue] at hq
    cases hq
  · exact ⟨.event e, .event e t he, by simp⟩
  · refine ⟨.process d, .process d t hd, fun d' heq => ?_⟩
    obtain rfl := Cause.process.inj heq
    exact h.unfinished hd
  · obtain ⟨ts, hts⟩ := h.orderly.families i t hi
    cases hts.nonempty with
    | inr hany => exact ⟨.nothing, .nothing i t hi hany.1 hany.2, by simp⟩
    | inl hne =>
        obtain ⟨u, hu⟩ := List.exists_mem_of_ne_nil ts hne
        obtain ⟨hlt, hh, hexu⟩ := (hts.outstanding.mem u).mp hu
        have hless : s.nextToken - u < n := hn ▸ Nat.sub_lt_sub_left ht (hts.younger u hu)
        obtain ⟨cause, hc, hd⟩ := ih (s.nextToken - u) hless hlt hexu rfl
        exact ⟨cause, .child i t u cause hi hh hexu hc, hd⟩

theorem blocked (h : Idle s) (hc : s.Unfinished c) :
    ∃ cause, s.BlockedBy c cause ∧ ∀ d, cause = .process d → s.Unfinished d := by
  obtain ⟨a, k, hst⟩ := h.suspended hc
  obtain ⟨t, htkn, hw⟩ := h.orderly.sleepers c a k hst
  obtain ⟨cause, hcause, hd⟩ := h.hangs hw.lt hw.unexecuted
  exact ⟨cause, ⟨a, k, t, hst, htkn, hcause⟩, hd⟩

end Idle

theorem Reachable.idle (h : Reachable ExceptionFree s) (hsh : s.Shared) (hrest : s.AtRest) :
    Idle s :=
  ⟨h.orderly, h.conserved (fun _ _ => ExceptionFree.ne_reset) hsh, hrest⟩

/-- When nothing is pending after a run without exceptions, every process that has not ended is
suspended, and hangs on an event that nobody has woken, on an `any_of` without children, or on a
process that has not ended either. -/
theorem unfinished_blocked (h : Reachable ExceptionFree s) (hsh : s.Shared) (hrest : s.AtRest)
    (hc : s.Unfinished c) :
    (∃ e, s.BlockedBy c (.event e)) ∨ s.BlockedBy c .nothing ∨
      ∃ d, s.WaitsOn c d ∧ s.Unfinished d := by
  obtain ⟨cause, hb, hd⟩ := (h.idle hsh hrest).blocked hc
  cases cause with
  | event e => exact .inl ⟨e, hb⟩
  | nothing => exact .inr (.inl hb)
  | process d => exact .inr (.inr ⟨d, hb, hd d rfl⟩)

/-- When moreover nobody waits for an event, and no composition is without children, every process
that has not ended waits for one of a cycle of processes that wait for each other. -/
theorem unfinished_cycle (h : Reachable ExceptionFree s) (hsh : s.Shared) (hrest : s.AtRest)
    (hev : ∀ e, s.events e = [])
    (hany : ∀ i t, (s.handlers i).completionTkn = some t → 0 < (s.handlers i).total)
    (hc : s.Unfinished c) : Cycle.Enters s.WaitsOn c := by
  have hi := h.idle hsh hrest
  have hno : ∀ {t cause}, s.HangsOn t cause → ∃ d, cause = .process d := by
    intro t cause hh
    induction hh with
    | event e t ht =>
        rw [hev e] at ht
        cases ht
    | process d t ht => exact ⟨d, rfl⟩
    | nothing i t hout hcond htotal => exact absurd (hany i t hout) (by omega)
    | child i t u cause hout hh hex hu ih => exact ih
  have hgoes : Cycle.GoesOn s.WaitsOn { c | s.Unfinished c } := fun c hc => by
    obtain ⟨cause, hb, hd⟩ := hi.blocked hc
    obtain ⟨a, k, t, hst, htkn, hh⟩ := hb
    obtain ⟨d, rfl⟩ := hno hh
    exact ⟨d, hd d rfl, a, k, t, hst, htkn, hh⟩
  have hfin : { c | s.Unfinished c }.Finite := by
    refine (Set.finite_Iio s.nextCoro).subset fun c hc => ?_
    exact hi.orderly.untroubled.single.sound.tidy.fresh.lt (by simp [hc.env])
  exact hgoes.enters hfin hc

/-- The states of the bodies of `knot`. -/
inductive Knot where
  | awaits
  | joins
  | wakes
  | ends

/-- Process 0 awaits process 1, which awaits process 0 and a timeout. A third one wakes an
event. -/
def knot : Program where
  User := Knot
  Body := Knot
  Memory := Unit
  Value := Unit
  Error := Unit
  start := id
  next b m _ := (m, match b with
    | .awaits => .await (.coroutine { coro := 1 } none) fun _ => .ends
    | .joins => .await (.comp { cond := .allOf }
        [.coroutine { coro := 0 } none, .timeout true 2 PriorityConsts.inherit none]) fun _ => .ends
    | .wakes => .await (.wake 0) fun _ => .ends
    | .ends => .coReturn none)

namespace knot

def called : State knot :=
  ((State.init ()).newCoro (.user Knot.awaits) {}).newCoro (.user Knot.joins) {}

def bound : State knot := called.bind (.coroutine { coro := 0 } none)

def first : State knot :=
  ({ bound.pop 0 with current := some 0 }.setStatus 0 (.running (.user Knot.awaits))).log
    (.started 0 0)

def half : State knot := first.coAwait 0 (.coroutine { coro := 1 } none) fun _ => .user Knot.ends

def second : State knot :=
  ({ half.pop 2 with current := some 1 }.setStatus 1 (.running (.user Knot.joins))).log
    (.started 1 0)

def tied : State knot := second.coAwait 1 (.comp { cond := .allOf }
  [.coroutine { coro := 0 } none, .timeout true 2 PriorityConsts.inherit none])
    fun _ => .user Knot.ends

/-- The timeout is over. -/
def idle : State knot := (tied.pop 6).count 0

theorem tied_reachable : Reachable ExceptionFree tied := by
  have hcall : ∀ (s : State knot) (b : Knot), ExceptionFree s (.call b {}) := fun s b =>
    .of_ne_exec (by simp) trivial (by simp)
  have hcalled : Reachable ExceptionFree called :=
    ((Reachable.init (P := knot) ()).next (hcall _ .awaits) (.call _ _ _)).next (hcall _ .joins)
      (.call _ _ _)
  have hbound : Reachable ExceptionFree bound :=
    hcalled.next (l := .bind (.coroutine { coro := 0 } none))
      (.of_ne_exec (by simp) trivial (by simp)) (.bind _ _ rfl (by decide))
  have hfirst : Reachable ExceptionFree first :=
    hbound.next (l := .step 0) (.of_ne_exec (by simp) rfl (by simp))
      (.step _ 0 _ (State.isTop_singleton rfl) rfl (by decide))
  have hhalf : Reachable ExceptionFree half :=
    hfirst.next (l := .exec 0) (.of_await rfl rfl rfl) (.exec _ _ _ rfl (by decide))
  have hsecond : Reachable ExceptionFree second :=
    hhalf.next (l := .step 2) (.of_ne_exec (by simp) rfl (by simp))
      (.step _ 2 _ (State.isTop_singleton rfl) rfl (by decide))
  exact hsecond.next (l := .exec 1) (.of_await rfl rfl rfl) (.exec _ _ _ rfl (by decide))

theorem idle_free : ExceptionFree tied (.step 6) := .of_ne_exec (by simp) rfl (by simp)

theorem idle_step : Step tied (.step 6) idle :=
  .step _ 6 _ (State.isTop_singleton rfl) rfl (by decide)

theorem idle_reachable : Reachable ExceptionFree idle := tied_reachable.next idle_free idle_step

theorem idle_shared : idle.Shared
  | 0 => rfl
  | 1 => rfl
  | _ + 2 => rfl

theorem idle_rest : idle.AtRest := ⟨rfl, rfl⟩

theorem idle_unfinished : idle.Unfinished 0 := ⟨rfl, rfl⟩

theorem idle_total (i : HandlerId) (t : TokenId)
    (hout : (idle.handlers i).completionTkn = some t) : 0 < (idle.handlers i).total := by
  match i with
  | 0 => decide
  | _ + 1 => cases hout

end knot

theorem unfinished_blocked_knot :
    (∃ e, knot.idle.BlockedBy 0 (.event e)) ∨ knot.idle.BlockedBy 0 .nothing ∨
      ∃ d, knot.idle.WaitsOn 0 d ∧ knot.idle.Unfinished d :=
  unfinished_blocked knot.idle_reachable knot.idle_shared knot.idle_rest knot.idle_unfinished

theorem unfinished_cycle_knot : Cycle.Enters knot.idle.WaitsOn 0 :=
  unfinished_cycle knot.idle_reachable knot.idle_shared knot.idle_rest (fun _ => rfl)
    knot.idle_total knot.idle_unfinished

end Cxxdes
