-- SUMMARY: token_comp is a legal comparator for the pending tokens exactly as long as no exception-only token is pending.
import Cxxdes.Run.Clock
import Cxxdes.Run.Replay

/-!
# The comparator

`token_comp` asks only whether its second argument is an exception-only token. Such a token
is served before every token that it is compared with, itself included, while an ordinary
token is compared with it by time and priority.
-/

namespace Cxxdes

variable {P : Program} {s : State P}

/-- What `token_comp` is meant to be on the pending tokens: a strict weak order that has the
exception-only tokens first, so that `step()` rethrows before any process runs. -/
structure HeapOrder (s : State P) : Prop where
  legal : WeakOrder.StrictWeakOn s.servedAfter s.queue
  asymm : ∀ t ∈ s.queue, ∀ u ∈ s.queue, s.servedAfter t u → ¬ s.servedAfter u t
  first : ∀ e ∈ s.queue, ∀ u ∈ s.queue, (s.tokens e).hasPriority = true →
    (s.tokens u).hasPriority = false → s.servedAfter u e ∧ ¬ s.servedAfter e u
  rest : ∀ t ∈ s.queue, ∀ u ∈ s.queue, (s.tokens t).hasPriority = false →
    (s.tokens u).hasPriority = false → (s.servedAfter t u ↔
      toLex ((s.tokens u).time, (s.tokens u).priority) <
        toLex ((s.tokens t).time, (s.tokens t).priority))
  raises : s.ErrorPending → ∀ t s', Step s (.step t) s' →
    ∃ e, s'.trace = s.trace ++ [.raised e s'.now]

/-- An exception-only token is served before an ordinary one, and not after it, if it is
not later. -/
theorem precedes_iff {e u : TokenId} (he : (s.tokens e).hasPriority = true)
    (hu : (s.tokens u).hasPriority = false) :
    (s.servedAfter u e ∧ ¬ s.servedAfter e u) ↔
      toLex ((s.tokens e).time, (s.tokens e).priority) ≤
        toLex ((s.tokens u).time, (s.tokens u).priority) := by
  have hafter : s.servedAfter u e := by
    simp only [State.servedAfter, Token.comp, he, Bool.true_or]
  rw [servedAfter_iff hu, not_lt]
  exact and_iff_right hafter

theorem HeapOrder.of_ordinary (h : ∀ u ∈ s.queue, (s.tokens u).hasPriority = false) :
    HeapOrder s where
  legal := .of_key (fun u => toLex ((s.tokens u).time, (s.tokens u).priority))
    fun _ _ u hu => servedAfter_iff (h u hu)
  asymm t ht u hu htu := by
    rw [servedAfter_iff (h u hu)] at htu
    rw [servedAfter_iff (h t ht)]
    exact lt_asymm htu
  first e he u _ hex := by
    rw [h e he] at hex
    cases hex
  rest t _ u _ _ hu := servedAfter_iff hu
  raises := fun ⟨e, he, hex⟩ => by
    rw [h e he] at hex
    cases hex

/-- The comparator is legal if and only if no exception-only token is pending: such a token is
served before itself. -/
theorem comparator_legal (s : State P) : HeapOrder s ↔ ¬ s.ErrorPending := by
  constructor
  · rintro horder ⟨e, he, hex⟩
    apply horder.legal.irrefl e he
    simp only [State.servedAfter, Token.comp, hex, Bool.true_or]
  · intro hno
    apply HeapOrder.of_ordinary
    intro u hu
    cases hex : (s.tokens u).hasPriority with
    | false => rfl
    | true => exact absurd ⟨u, hu, hex⟩ hno

/-- A process that fails, and one that waits for it. -/
def overtaker : Program where
  User := Bool
  Body := Option Bool
  Memory := Unit
  Value := Unit
  Error := Unit
  start := some
  next b m _ := (m, match b with
    | some true => .await (.coroutine { coro := 0 } none) fun _ => none
    | some false => .throw (.user ())
    | none => .coReturn none)

namespace overtaker

/-- Process 0 is bound with a return latency of 10 and fails at 1, while process 1 waits for
it with no latency. -/
def failed : State overtaker :=
  (State.init ()).after (fun _ _ => true)
    [.call false { latency := 1 }, .bind (.coroutine { coro := 0, retLatency := 10 } none),
      .call true {}, .bind (.coroutine { coro := 1 } none), .step 2, .exec 1, .step 0, .exec 0]

theorem failed_reachable : Reachable (fun _ _ => True) failed :=
  .after (fun _ _ _ => trivial) _ _

/-- The token of process 1, at 1, comes after the exception-only token, at 11, and before it. -/
theorem failed_isTop : failed.IsTop 4 := by
  have hmem : 4 ∈ failed.queue := by decide +kernel
  refine ⟨hmem, fun _ _ => ⟨hmem, fun hweak => ?_⟩⟩
  exact absurd (by decide +kernel) (hweak.irrefl 1 (by decide +kernel))

theorem failed_step : ((failed.step 4).toOption.bind State.fitting).isSome = true := by
  decide +kernel

end overtaker

/-- Process 1 runs while an exception-only token is pending, which was pushed before its own. -/
theorem process_overtakes_exception :
    ¬ ∀ (P : Program) (s : State P), Reachable (fun _ _ => True) s → HeapOrder s := by
  intro hall
  have horder := hall overtaker overtaker.failed overtaker.failed_reachable
  have herror : overtaker.failed.ErrorPending := ⟨1, by decide +kernel, by decide +kernel⟩
  cases hstep : overtaker.failed.step 4 with
  | error f =>
      have hsome := overtaker.failed_step
      rw [hstep] at hsome
      cases hsome
  | ok s' =>
      have hfits : s'.Fits := by
        have hsome := overtaker.failed_step
        rw [hstep] at hsome
        obtain ⟨s1, hs1⟩ := Option.isSome_iff_exists.mp hsome
        exact (State.fitting_eq hs1).2
      obtain ⟨e, he⟩ := horder.raises herror 4 s' (.step _ _ _ overtaker.failed_isTop hstep hfits)
      -- The trace has got a `resumed` and a `result`.
      have hlen : ((overtaker.failed.step 4).toOption.map fun s => s.trace.length) =
          some (overtaker.failed.trace.length + 2) := by decide +kernel
      rw [hstep] at hlen
      have hlen : s'.trace.length = overtaker.failed.trace.length + 2 := Option.some.inj hlen
      rw [he, List.length_append] at hlen
      simp at hlen

end Cxxdes
