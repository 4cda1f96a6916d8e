-- SUMMARY: An executable form of the transitions, for runs of concrete programs.
import Cxxdes.Run.Cases

/-!
# Replayed runs

A transition is determined by its label. `State.move` computes the state it leads to, or
finds that it is not allowed; `State.after` follows a list of labels as far as it is.
While the heap is in order `step()` takes the tokens that no pending token has to be served
before, which is legal whatever the keys of the tokens were when they were pushed.
-/

namespace Cxxdes

variable {P : Program} {s s' : State P}

/-- The state, if no sum of times has overflowed. -/
def State.fitting (s : State P) : Option (State P) :=
  if s.Fits then some s else none

/-- The state after the transition with label `l`. Calls of the program that owns the
environment are limited to `call` and `bind`. -/
def State.move (s : State P) : Label P → Option (State P)
  | .call f o => some (s.newCoro (.user (P.start f)) o)
  | .bind a => if a.invalid s.movedFrom then none else (s.bind a).fitting
  | .step t =>
    if t ∈ s.queue ∧ (s.Heaped → ∀ u ∈ s.queue, ¬ s.servedAfter t u) then
      (s.step t).toOption.bind State.fitting else none
  | .exec c => (s.exec c).toOption.bind State.fitting
  | _ => none

theorem State.fitting_eq (h : s.fitting = some s') : s' = s ∧ s.Fits := by
  unfold State.fitting at h
  split at h
  · next hfits => cases h; exact ⟨rfl, hfits⟩
  · cases h

theorem State.move_step {l : Label P} (h : s.move l = some s') : Step s l s' := by
  have hok : ∀ {r : Except Fault (State P)}, r.toOption.bind State.fitting = some s' →
      r = .ok s' ∧ s'.Fits := by
    intro r hr
    cases r with
    | error e => cases hr
    | ok s1 =>
        obtain ⟨rfl, hfits⟩ := State.fitting_eq hr
        exact ⟨rfl, hfits⟩
  cases l with
  | call f o => cases h; exact .call s f o
  | bind a =>
      simp only [State.move] at h
      split at h
      · cases h
      · next hvalid =>
          obtain ⟨rfl, hfits⟩ := State.fitting_eq h
          exact .bind s a (Bool.eq_false_iff.mpr hvalid) hfits
  | step t =>
      simp only [State.move] at h
      split at h
      · next htop =>
          obtain ⟨hst, hfits⟩ := hok h
          exact .step s t s' ⟨htop.1, fun hheap _ => ⟨htop.1, fun _ => htop.2 hheap⟩⟩ hst hfits
      · cases h
  | exec c => exact .exec s c s' (hok h).1 (hok h).2
  | elsewhere c | advance deadline | reset => cases h

/-- A transition that is known to be allowed. -/
theorem State.moved {l : Label P} (h : (s.move l).isSome = true) :
    Step s l ((s.move l).getD s) := by
  apply State.move_step
  cases hm : s.move l with
  | none => rw [hm] at h; cases h
  | some s' => rfl

/-- The state after the transitions `ls`, as long as they are allowed and meet `ok`. -/
def State.after (ok : State P → Label P → Bool) (s : State P) : List (Label P) → State P
  | [] => s
  | l :: ls =>
    if ok s l then
      match s.move l with
      | some s' => s'.after ok ls
      | none => s
    else s

theorem State.after_runs {ok : State P → Label P → Bool} {C : State P → Label P → Prop}
    (hC : ∀ s l, ok s l = true → C s l) (s : State P) (ls : List (Label P)) :
    Transition.Runs Step C s (s.after ok ls) := by
  induction ls generalizing s with
  | nil => exact .refl s
  | cons l ls ih =>
      unfold State.after
      split
      · next hok =>
          split
          · next s' hm =>
              exact ((Transition.Runs.refl s).tail (hC s l hok) (State.move_step hm)).trans (ih s')
          · exact .refl s
      · exact .refl s

theorem Reachable.after {ok : State P → Label P → Bool} {C : State P → Label P → Prop}
    (hC : ∀ s l, ok s l = true → C s l) (m : P.Memory) (ls : List (Label P)) :
    Reachable C ((State.init m : State P).after ok ls) :=
  ⟨m, State.after_runs hC _ ls⟩

/-- `l` is not a `reset()`. -/
def Label.keeps : Label P → Bool
  | .reset => false
  | _ => true

theorem Label.keeps_spec (_ : State P) (l : Label P) (h : l.keeps = true) : l ≠ .reset := by
  rintro rfl
  cases h

/-- `step()` is not called while a body runs. -/
def State.between (s : State P) : Label P → Bool
  | .step _ => s.current.isNone
  | _ => true

theorem State.between_spec (s : State P) (l : Label P) (h : s.between l = true) :
    ∀ t, l = .step t → s.current = none := by
  rintro t rfl
  exact Option.isNone_iff_eq_none.mp h

/-- What the body of `c` does next meets `p`, when it runs and awaits. -/
def State.checks (p : P.Frame → Awaitable P.User → Bool) (s : State P) (c : CoroId) : Bool :=
  match (s.coros c).status with
  | .running f =>
    match s.next f with
    | .await a _ => p f a
    | _ => true
  | _ => true

theorem State.checks_await {p : P.Frame → Awaitable P.User → Bool} {c : CoroId} {f : P.Frame}
    {a : Awaitable P.User} {k : Result P.Value P.Error → P.Frame} (h : s.checks p c = true)
    (hst : (s.coros c).status = .running f) (hact : s.next f = .await a k) : p f a = true := by
  unfold State.checks at h
  rw [hst] at h
  simp only [hact] at h
  exact h

/-- The states of the bodies of `relay`. -/
inductive Relay where
  | polls
  | listens
  | works
  | joins
  | ends
deriving DecidableEq

/-- One process awaits another together with a delay, and then an event; a third one awaits
the second, which takes 5. -/
abbrev relay : Program where
  User := Relay
  Body := Relay
  Memory := Unit
  Value := Unit
  Error := Unit
  start := id
  next b m _ := (m, match b with
    | .polls => .await (.comp { cond := .anyOf } [.call .works {},
        .timeout true 3 PriorityConsts.inherit none]) fun _ => .listens
    | .listens => .await (.wait 0 0 PriorityConsts.inherit none) fun _ => .ends
    | .works => .await (.timeout true 5 PriorityConsts.inherit none) fun _ => .ends
    | .joins => .await (.coroutine { coro := 1 } none) fun _ => .ends
    | .ends => .coReturn none)

namespace relay

/-- Process 0 is suspended in its composition, process 1 in its delay, and process 2 in its
`co_await` of process 1. -/
def polling (ok : State relay → Label relay → Bool) : State relay :=
  (State.init ()).after ok [.bind (.call Relay.polls {}), .step 0, .exec 0,
    .bind (.call Relay.joins {}), .step 2, .exec 1, .step 6, .exec 2]

/-- Process 0 has been resumed by its composition at 3 and waits for the event. -/
def listening (ok : State relay → Label relay → Bool) : State relay :=
  (polling ok).after ok [.step 5, .step 3, .exec 0]

/-- Process 1 has ended at 5, the losing child of the composition has been executed, and
process 2 has been resumed. -/
def joined (ok : State relay → Label relay → Bool) : State relay :=
  (listening ok).after ok [.step 8, .exec 1, .step 4, .step 9]

theorem polling_reachable {ok : State relay → Label relay → Bool}
    {C : State relay → Label relay → Prop} (hC : ∀ s l, ok s l = true → C s l) :
    Reachable C (polling ok) :=
  .after hC () _

theorem listening_reachable {ok : State relay → Label relay → Bool}
    {C : State relay → Label relay → Prop} (hC : ∀ s l, ok s l = true → C s l) :
    Reachable C (listening ok) :=
  (polling_reachable hC).trans (State.after_runs hC _ _)

theorem joined_reachable {ok : State relay → Label relay → Bool}
    {C : State relay → Label relay → Prop} (hC : ∀ s l, ok s l = true → C s l) :
    Reachable C (joined ok) :=
  (listening_reachable hC).trans (State.after_runs hC _ _)

end relay

end Cxxdes
