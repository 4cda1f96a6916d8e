-- SUMMARY: The arguments of timeout and lazy_timeout, and when the deadline that lazy_timeout captures is that of timeout.
import Cxxdes.Run.Timeouts
import Cxxdes.Time.Expr

/-!
# Lazy and eager timeouts

`timeout` has an overload for time-expression nodes and one for ticks, to which every other
integer is converted. `lazy_timeout` has an overload for ticks, too, but its other one takes
anything: an integer of another type than `time_integral` is converted as a number of model
units.
-/

namespace Cxxdes.TimeUtils

open MachineInt

variable {S V : Type}

/-- An argument that both factories accept, by its type: a node, a `time_integral`, or an integer of
another type. -/
inductive TimeoutArg (S : Type) where
  | node (n : Node S)
  | ticks (x : Word intmax)
  | integral (I : IntType) (x : Word I)

namespace TimeoutArg

/-- `time()` of the result of `timeout`. -/
def delay (A : Arith S V) (env : TimeBase) : TimeoutArg S → Option (Word intmax)
  | node n => n.realToSim A env
  | ticks x => some x
  | integral _ x => some (x.convert intmax)

/-- What the result of `lazy_timeout` adds to the current time. -/
def lazyDelay (A : Arith S V) (env : TimeBase) : TimeoutArg S → Option (Word intmax)
  | node n => n.realToSim A env
  | ticks x => some x
  | integral _ x => env.unitlessToSim ⟨x⟩

/-- `env().now() + derived().time()` in `await_suspend` of the result of `timeout`. -/
def timeoutToken (A : Arith S V) (env : TimeBase) (now : Word intmax) (x : TimeoutArg S) :
    Option (Word intmax) := do
  now.add (← x.delay A env)

/-- `tsim` after `await_bind` of the result of `lazy_timeout`, and the time of the `instant` that
is the result of the `co_await`. -/
def lazyDeadline (A : Arith S V) (env : TimeBase) (now : Word intmax) (x : TimeoutArg S) :
    Option (Word intmax) := do
  now.add (← x.lazyDelay A env)

/-- The deadline is captured, and a process that awaits it at any later time `s` runs on at the
later of `s` and the time at which `timeout`, with token time `pt`, would have resumed it. -/
def LazyAgrees (A : Arith S V) (env : TimeBase) (now : Word intmax) (x : TimeoutArg S)
    (pt : Word intmax) : Prop :=
  ∃ T, x.lazyDeadline A env now = some T ∧
    ∀ s, now.val ≤ s → resumeTime s T.val = max s (resumeTime now.val pt.val)

/-- An integer of another type is as many ticks as it is model units, or both are no delay, and
neither the conversion nor the deadline overflows. -/
def Congruous (env : TimeBase) (now : Word intmax) : TimeoutArg S → Prop
  | integral I x => ∃ c, env.unit.count env.precision = some c ∧
    ((I.common intmax).signed = true → (I.common intmax).Fits (x.val * c.val)) ∧
    intmax.Fits (now.val + intmax.wrap (x.val * c.val)) ∧
    (intmax.wrap x.val = intmax.wrap (x.val * c.val) ∨
      intmax.wrap x.val ≤ 0 ∧ intmax.wrap (x.val * c.val) ≤ 0)
  | _ => True

/-- Two delays from `now` on are over at the same time. -/
theorem resumeTime_agrees {now d d' : Int} :
    (∀ s, now ≤ s → resumeTime s (now + d') = max s (resumeTime now (now + d))) ↔
      d = d' ∨ d ≤ 0 ∧ d' ≤ 0 := by
  unfold resumeTime
  constructor
  · intro h
    have h1 := h now (Int.le_refl _)
    omega
  · intro h s hs
    omega

theorem add_eq_some {a b r : Word intmax} : a.add b = some r ↔ a.val + b.val = r.val :=
  IntType.result_signed rfl

/-- The deadlines agree if and only if the two delays do. -/
theorem lazyAgrees_iff {A : Arith S V} {env : TimeBase} {now pt d : Word intmax}
    {x : TimeoutArg S} (hd : x.delay A env = some d) (hpt : x.timeoutToken A env now = some pt) :
    x.LazyAgrees A env now pt ↔ ∃ d', x.lazyDelay A env = some d' ∧
      intmax.Fits (now.val + d'.val) ∧ (d.val = d'.val ∨ d.val ≤ 0 ∧ d'.val ≤ 0) := by
  unfold timeoutToken at hpt
  rw [hd] at hpt
  have hpt := add_eq_some.mp hpt
  unfold LazyAgrees lazyDeadline
  constructor
  · rintro ⟨T, hT, hs⟩
    obtain ⟨d', hd', hT⟩ := Option.bind_eq_some_iff.mp hT
    have hT := add_eq_some.mp hT
    rw [← hT, ← hpt] at hs
    exact ⟨d', hd', hT ▸ T.fits, resumeTime_agrees.mp hs⟩
  · rintro ⟨d', hd', hfit, hs⟩
    refine ⟨⟨_, hfit⟩, ?_, ?_⟩
    · rw [hd']
      exact IntType.result_of_fits hfit
    · rw [← hpt]
      exact resumeTime_agrees.mpr hs

/-- The deadline that `lazy_timeout` captures is that of `timeout`, except for integers of other
types than `time_integral` where a model unit is not one tick. -/
theorem lazy_timeout_agrees (A : Arith S V) (env : TimeBase) (now : Word intmax)
    (x : TimeoutArg S) {pt : Word intmax} (h : x.timeoutToken A env now = some pt) :
    x.LazyAgrees A env now pt ↔ x.Congruous env now := by
  obtain ⟨d, hd, hpt⟩ := Option.bind_eq_some_iff.mp h
  rw [lazyAgrees_iff hd h]
  have hsame : x.lazyDelay A env = some d → ∃ d', x.lazyDelay A env = some d' ∧
      intmax.Fits (now.val + d'.val) ∧ (d.val = d'.val ∨ d.val ≤ 0 ∧ d'.val ≤ 0) := fun hd' =>
    ⟨d, hd', add_eq_some.mp hpt ▸ pt.fits, .inl rfl⟩
  cases x with
  | node | ticks => exact iff_of_true (hsame hd) trivial
  | integral I x =>
      obtain rfl : x.convert intmax = d := Option.some.inj hd
      constructor
      · rintro ⟨d', hd', hfit, hs⟩
        obtain ⟨c, hc, hsig, hval⟩ := TimeBase.unitlessToSim_iff.mp hd'
        rw [hval] at hfit hs
        exact ⟨c, hc, hsig, hfit, hs⟩
      · rintro ⟨c, hc, hsig, hfit, hs⟩
        exact ⟨⟨_, intmax.wrap_fits _⟩, TimeBase.unitlessToSim_iff.mpr ⟨c, hc, hsig, rfl⟩, hfit, hs⟩

/-- In a run, a process that awaits the captured deadline runs on at that time. -/
theorem LazyAgrees.runsOnAt {P : Program} {C : State P → Label P → Prop} {s s1 : State P}
    {c : CoroId} {f : P.Frame} {own : Int} {tkn : Option TokenId}
    {k : Result P.Value P.Error → P.Frame} {A : Arith S V} {env : TimeBase} {now pt T : Word intmax}
    {x : TimeoutArg S} (hx : x.LazyAgrees A env now pt) (hT : x.lazyDeadline A env now = some T)
    (h : Reachable C s) (hnow : now.val ≤ s.now) (hstep : Step s (.exec c) s1)
    (hst : (s.coros c).status = .running f)
    (hact : s.next f = .await (.timeout false T.val own tkn) k)
    (hcur : s.current = some c) : s1.RunsOnAt c (max s.now (resumeTime now.val pt.val)) := by
  obtain ⟨T', hT', hs⟩ := hx
  obtain rfl : T' = T := Option.some.inj (hT'.symm.trans hT)
  rw [← hs s.now hnow]
  exact hstep.runsOnAt h hst hact hcur

theorem lazy_timeout_agrees_ticks :
    (ticks ⟨5, by decide⟩ : TimeoutArg (Word intmax)).LazyAgrees integers millis ⟨2, by decide⟩
      ⟨7, by decide⟩ :=
  (lazy_timeout_agrees integers millis ⟨2, by decide⟩ (.ticks ⟨5, by decide⟩) rfl).mpr trivial

/-- With units of one second and ticks of 1 ms, the `int` 5 is five ticks and 5000. -/
theorem lazy_timeout_differs :
    ¬ ∀ (S V : Type) (A : Arith S V) (env : TimeBase) (now pt : Word intmax) (x : TimeoutArg S),
      x.timeoutToken A env now = some pt → x.LazyAgrees A env now pt := by
  intro h
  obtain ⟨T, hT, hs⟩ := h _ _ integers millis ⟨2, by decide⟩ ⟨7, by decide⟩
    (.integral .int ⟨5, by decide⟩) (by decide)
  have hT' : T = ⟨5002, by decide⟩ := Option.some.inj (hT.symm.trans (by decide))
  have h2 := hs 2 (by decide)
  rw [hT'] at h2
  exact absurd h2 (by decide)

end TimeoutArg

end Cxxdes.TimeUtils
