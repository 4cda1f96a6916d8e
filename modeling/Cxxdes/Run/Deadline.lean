-- SUMMARY: run_until executes what is due by its deadline, unless a heap out of order hides a due token from its test.
import Cxxdes.Run.Clock

/-!
# Deadlines

`run_until(t)` is a loop around `step()` that looks at the top of the queue only. What
is on top is told by a function of the pops and pushes since the call, as it is for a
`std::priority_queue`, so the runs below are those of one implementation of the queue.
-/

namespace Cxxdes

variable {P : Program}

/-! ### step -/

namespace State

/-- The exception that leaves `step()` with `t` on top. -/
def thrown (s : State P) (t : TokenId) : Option (Exn P.Error) :=
  match (s.tokens t).handler with
  | some h => ((s.pop t).invoke h t).1
  | none =>
    match (s.tokens t).coroData with
    | some _ => none
    | none => (s.tokens t).eptr

/-- `step()` with `t` on top. A body that is resumed runs up to its next suspension or to
its end. -/
structure Executes (s : State P) (t : TokenId) (s' : State P) : Prop where
  top : s.IsTop t
  run : ∃ s0, s.step t = .ok s0 ∧ s0.Fits ∧
    Transition.Runs Step (fun _ l => ∃ c, l = .exec c) s0 s'
  back : s'.current = none

end State

/-! ### run_until -/

/-- An iteration of the loop: the token that `step()` executes, its time, `now()` while it
is executed, and the tokens that are scheduled meanwhile. -/
structure Turn where
  token : TokenId
  time : Int
  now : Int
  pushed : List TokenId
deriving DecidableEq

/-- What the iteration does to the queue. -/
def Turn.ops (x : Turn) : TokenId × List TokenId := (x.token, x.pushed)

def State.turn (s : State P) (t : TokenId) (s' : State P) : Turn where
  token := t
  time := (s.tokens t).time
  now := (s.pop t).now
  pushed := s'.scheduled.drop s.scheduled.length

/-- The end of `run_until(deadline)`. -/
def State.advanced (s : State P) (deadline : Int) : State P :=
  { s with now := max s.now deadline }

/-- How a call ends. -/
inductive Outcome (E : Type) where
  | returns
  | throws (e : Exn E)

/-- The runs of `run_until(deadline)` that go on from `s`, after the queue operations `ops`
that `top` is a function of: the iterations, how the call ends, and the state it leaves. `C` is a
condition on the tests `next_event()->time <= t`, with the token on top. -/
inductive RunUntil (C : State P → TokenId → Prop) (top : List (TokenId × List TokenId) → TokenId)
    (deadline : Int) : List (TokenId × List TokenId) → State P → List Turn →
      Outcome P.Error → State P → Prop where
  | empty (ops s) (hq : s.queue = []) :
      RunUntil C top deadline ops s [] .returns (s.advanced deadline)
  | stop (ops s) (htop : s.IsTop (top ops)) (hC : C s (top ops))
      (hlt : deadline < (s.tokens (top ops)).time) :
      RunUntil C top deadline ops s [] .returns (s.advanced deadline)
  | throws (ops s s1 e) (hC : C s (top ops)) (hle : (s.tokens (top ops)).time ≤ deadline)
      (hex : s.Executes (top ops) s1) (he : s.thrown (top ops) = some e) :
      RunUntil C top deadline ops s [s.turn (top ops) s1] (.throws e) s1
  | turn (ops s s1 log o s') (hC : C s (top ops)) (hle : (s.tokens (top ops)).time ≤ deadline)
      (hex : s.Executes (top ops) s1) (he : s.thrown (top ops) = none)
      (hr : RunUntil C top deadline (ops ++ [(s.turn (top ops) s1).ops]) s1 log o s') :
      RunUntil C top deadline ops s (s.turn (top ops) s1 :: log) o s'

/-! ### What an iteration does -/

variable {s s' : State P} {gone : List TokenId} {own : TokenId → Owner}

/-- What `step()` keeps. -/
structure Executed (gone : List TokenId) (s : State P) (t : TokenId) (s' : State P) : Prop where
  tidy : s'.Tidy False
  owned : ∃ own, Owned gone s' own
  now : s'.now = (s.pop t).now
  executed : s'.executed = s.executed ++ [t]

theorem State.Executes.of_step {s0 : State P} {t : TokenId} (hstep : Step s (.step t) s0)
    (hruns : Transition.Runs Step (fun _ l => ∃ c, l = .exec c) s0 s') (hback : s'.current = none) :
    s.Executes t s' := by
  cases hstep with
  | step _ _ htop hst hfits => exact ⟨htop, ⟨s0, hst, hfits, hruns⟩, hback⟩

theorem State.Executes.stepped {t : TokenId} (h : s.Executes t s') :
    ∃ s0, Step s (.step t) s0 ∧ Transition.Runs Step (fun _ l => ∃ c, l = .exec c) s0 s' := by
  obtain ⟨s0, hstep, hfits, hruns⟩ := h.run
  exact ⟨s0, .step s t s0 h.top hstep hfits, hruns⟩

theorem State.Executes.executed {t : TokenId} (h : s.Executes t s') (hs : s.Tidy False)
    (ho : Owned gone s own) : Executed gone s t s' := by
  obtain ⟨s0, hfirst, hruns⟩ := h.stepped
  have h0 : Executed gone s t s0 := by
    obtain ⟨own0, gone0, ho0, hgone⟩ := hfirst.owned hs ho
    obtain rfl := hgone (fun hc => by cases hc)
    have hkept := hfirst.kept hs (fun hc => by cases hc) ho
    exact ⟨hfirst.tidy (fun hf => hf.elim) hs, ⟨own0, ho0⟩, hkept.now, hkept.executed⟩
  refine hruns.invariant (I := fun s' => Executed gone s t s') ?_ h0
  rintro s1 _ s2 h1 ⟨c, rfl⟩ hexec
  obtain ⟨own1, ho1⟩ := h1.owned
  obtain ⟨own2, gone2, ho2, hgone⟩ := hexec.owned h1.tidy ho1
  obtain rfl := hgone (fun hc => by cases hc)
  have hkept := hexec.kept h1.tidy (fun hc => by cases hc) ho1
  exact ⟨hexec.tidy (fun hf => hf.elim) h1.tidy, ⟨own2, ho2⟩, hkept.now.trans h1.now,
    hkept.executed.trans h1.executed⟩

/-! ### The deadline law -/

/-- All pending tokens are due by the deadline, or none is. -/
def State.OneSided (deadline : Int) (s : State P) : Prop :=
  (∀ u ∈ s.queue, (s.tokens u).time ≤ deadline) ∨ ∀ u ∈ s.queue, deadline < (s.tokens u).time

/-- No due token can be hidden from the test: the heap is in order, or whichever token is on top
tells as much. -/
def State.Shows (deadline : Int) (s : State P) : Prop :=
  s.Heaped ∨ s.OneSided deadline

/-- With the clock at `deadline`, nothing that is due is pending. -/
theorem State.Shows.stop {deadline : Int} {t : TokenId} (h : s.Shows deadline)
    (ho : Owned gone s own) (htop : s.IsTop t) (hlt : deadline < (s.tokens t).time) :
    ∀ u ∈ s.queue, deadline < (s.tokens u).time := by
  rcases h with hheap | hdue | hlater
  · exact fun u hu => Int.lt_of_lt_of_le hlt (ho.least_time (.inl hheap) htop u hu)
  · exact absurd (hdue t htop.1) (Int.not_le.mpr hlt)
  · exact hlater

namespace RunUntil

variable {C : State P → TokenId → Prop} {top : List (TokenId × List TokenId) → TokenId}
  {deadline : Int} {ops : List (TokenId × List TokenId)} {log : List Turn} {o : Outcome P.Error}

theorem owned (hr : RunUntil C top deadline ops s log o s') (hs : s.Tidy False)
    (ho : Owned gone s own) : s'.Tidy False ∧ ∃ own, Owned gone s' own := by
  induction hr generalizing own with
  | empty ops s hq => exact ⟨⟨hs.fresh, hs.object⟩, own, { ho with }⟩
  | stop ops s htop hC hlt => exact ⟨⟨hs.fresh, hs.object⟩, own, { ho with }⟩
  | throws ops s s1 e hC hle hex he =>
      have h1 := hex.executed hs ho
      exact ⟨h1.tidy, h1.owned⟩
  | turn ops s s1 log o s' hC hle hex he hr ih =>
      have h1 := hex.executed hs ho
      obtain ⟨own1, ho1⟩ := h1.owned
      exact ih h1.tidy ho1

/-- A call that returns leaves the clock at the deadline, if it was not past it. -/
theorem clock (hr : RunUntil C top deadline ops s log .returns s') (hs : s.Tidy False)
    (ho : Owned gone s own) : s'.now = max s.now deadline := by
  generalize hout : (Outcome.returns : Outcome P.Error) = o at hr
  induction hr generalizing own with
  | empty ops s hq => rfl
  | stop ops s htop hC hlt => rfl
  | throws ops s s1 e hC hle hex he => cases hout
  | turn ops s s1 log o s' hC hle hex he hr ih =>
      have h1 := hex.executed hs ho
      obtain ⟨own1, ho1⟩ := h1.owned
      have hnow := ih h1.tidy ho1 hout
      have hpop : (s.pop (top ops)).now = max (s.tokens (top ops)).time s.now := rfl
      rw [hnow, h1.now, hpop]
      omega

/-- If no test was deceived, nothing that is due is pending when the call returns. -/
theorem pending
    (hr : RunUntil (fun s _ => s.Shows deadline) top deadline ops s log .returns s')
    (hs : s.Tidy False) (ho : Owned gone s own) :
    ∀ u ∈ s'.queue, deadline < (s'.tokens u).time := by
  generalize hout : (Outcome.returns : Outcome P.Error) = o at hr
  induction hr generalizing own with
  | empty ops s hq =>
      intro u hu
      exact absurd (hq ▸ hu : u ∈ []) List.not_mem_nil
  | stop ops s htop hC hlt => exact hC.stop ho htop hlt
  | throws ops s s1 e hC hle hex he => cases hout
  | turn ops s s1 log o s' hC hle hex he hr ih =>
      have h1 := hex.executed hs ho
      obtain ⟨own1, ho1⟩ := h1.owned
      exact ih h1.tidy ho1 hout

end RunUntil

namespace relay

/-- The clock is at 0, and tokens 5 and 8 are pending with the times 3 and 5. -/
def before : State relay := polling State.between

def fired : State relay := (before.move (.step 5)).getD before

def woken : State relay := (fired.move (.step 3)).getD fired

/-- Process 0 has been resumed by its composition and has awaited the event. -/
def behind : State relay := (woken.move (.exec 0)).getD woken

theorem before_reachable : Reachable (fun s l => ∀ t, l = .step t → s.current = none) before :=
  polling_reachable State.between_spec

theorem fires : before.Executes 5 fired :=
  .of_step (State.moved (by decide +kernel)) (.refl _) (by decide +kernel)

theorem reports : fired.Executes 3 behind :=
  .of_step (State.moved (by decide +kernel))
    ((Transition.Runs.refl _).tail ⟨0, rfl⟩ (State.moved (l := .exec 0) (by decide +kernel)))
    (by decide +kernel)

/-- A queue that takes the token of the composition, its output token and the delay. -/
def order (ops : List (TokenId × List TokenId)) : TokenId :=
  match ops with
  | [] => 5
  | [_] => 3
  | _ => 8

theorem later_isTop : behind.IsTop 8 := by
  have hstep : Step behind (.step 8) _ := State.moved (by decide +kernel)
  cases hstep with
  | step _ _ htop => exact htop

/-- `run_until(4)`: the composition is resumed at 3, and the delay of process 1 ends at 5. -/
theorem until_four {C : State relay → TokenId → Prop} (h1 : C before 5) (h2 : C fired 3)
    (h3 : C behind 8) : RunUntil C order 4 [] before [before.turn 5 fired, fired.turn 3 behind]
      .returns (behind.advanced 4) :=
  .turn _ _ fired _ _ _ h1 (by decide +kernel) fires (by decide +kernel)
    (.turn _ _ behind _ _ _ h2 (by decide +kernel) reports (by decide +kernel)
      (.stop _ _ later_isTop h3 (by decide +kernel)))

end relay

namespace thrower

theorem executes : bound.Executes 0 failed where
  top := bound_isTop
  run := ⟨started, rfl, by decide,
    (Transition.Runs.refl started).tail ⟨0, rfl⟩ (.exec _ _ _ rfl (by decide))⟩
  back := rfl

end thrower

end Cxxdes
