-- SUMMARY: Splitting a run_until into several calls of run_until and run_for does not change the run.
import Cxxdes.Run.Deadline

/-!
# Pausing

The end of `run_until(a)` moves the clock to `a` without executing a token. A token that
is left pending is later than `a`, so `step()` moves the clock past `a` before anything
can read it.
-/

namespace Cxxdes

variable {P : Program}

/-! ### One pause -/

section
variable {s s' : State P} {a b : Int} {t : TokenId}

/-- `step()` starts from the same state whether or not the clock was moved before. -/
theorem State.advanced_pop (h : a < (s.tokens t).time) : (s.advanced a).pop t = s.pop t := by
  have hnow : max (s.tokens t).time (max s.now a) = max (s.tokens t).time s.now := by omega
  simp only [State.pop, State.advanced, hnow]

theorem State.advanced_advanced (h : a ≤ b) : (s.advanced a).advanced b = s.advanced b := by
  have hnow : max (max s.now a) b = max s.now b := by omega
  simp only [State.advanced, hnow]

theorem State.advanced_step (h : a < (s.tokens t).time) : (s.advanced a).step t = s.step t := by
  unfold State.step
  rw [State.advanced_pop h]

theorem State.advanced_thrown (h : a < (s.tokens t).time) :
    (s.advanced a).thrown t = s.thrown t := by
  unfold State.thrown
  rw [State.advanced_pop h]
  rfl

theorem State.advanced_turn (h : a < (s.tokens t).time) :
    (s.advanced a).turn t s' = s.turn t s' := by
  unfold State.turn
  rw [State.advanced_pop h]
  rfl

theorem State.advanced_executes (h : a < (s.tokens t).time) :
    (s.advanced a).Executes t s' ↔ s.Executes t s' := by
  constructor
  · rintro ⟨htop, hrun, hback⟩
    rw [State.advanced_step h] at hrun
    exact ⟨htop, hrun, hback⟩
  · rintro ⟨htop, hrun, hback⟩
    rw [← State.advanced_step h] at hrun
    exact ⟨htop, hrun, hback⟩

end

namespace RunUntil

variable {top : List (TokenId × List TokenId) → TokenId} {a b : Int}
  {ops : List (TokenId × List TokenId)} {s s' : State P} {log : List Turn} {o : Outcome P.Error}

/-- Where `run_until(a)` stops, `run_until(b)` goes on as if the clock had not been moved. -/
theorem advanced (hab : a ≤ b) (hstop : s.queue = [] ∨ a < (s.tokens (top ops)).time) :
    RunUntil (fun _ _ => True) top b ops (s.advanced a) log o s' ↔
      RunUntil (fun _ _ => True) top b ops s log o s' := by
  -- an iteration needs a token on top, which is then later than `a`
  have hlater : s.IsTop (top ops) → a < (s.tokens (top ops)).time := by
    intro htop
    cases hstop with
    | inl hq => exact absurd htop.1 (by simp [hq])
    | inr hlt => exact hlt
  constructor
  · intro h
    generalize hx : s.advanced a = x at h
    cases h with
    | empty _ _ hq =>
        subst hx
        rw [State.advanced_advanced hab]
        exact .empty ops s hq
    | stop _ _ htop _ hlt =>
        subst hx
        rw [State.advanced_advanced hab]
        exact .stop ops s htop trivial hlt
    | throws _ _ _ e _ hle hex he =>
        subst hx
        have hlt := hlater hex.top
        rw [State.advanced_thrown hlt] at he
        rw [State.advanced_turn hlt]
        exact .throws ops s s' e trivial hle ((State.advanced_executes hlt).mp hex) he
    | turn _ _ s1 _ _ _ _ hle hex he hr =>
        subst hx
        have hlt := hlater hex.top
        rw [State.advanced_thrown hlt] at he
        rw [State.advanced_turn hlt] at hr ⊢
        exact .turn ops s s1 _ o s' trivial hle ((State.advanced_executes hlt).mp hex) he hr
  · intro h
    cases h with
    | empty _ _ hq =>
        rw [← State.advanced_advanced hab]
        exact .empty ops (s.advanced a) hq
    | stop _ _ htop _ hlt =>
        rw [← State.advanced_advanced hab]
        exact .stop ops (s.advanced a) htop trivial hlt
    | throws _ _ _ e _ hle hex he =>
        have hlt := hlater hex.top
        rw [← State.advanced_thrown hlt] at he
        rw [← State.advanced_turn hlt]
        exact .throws ops (s.advanced a) s' e trivial hle
          ((State.advanced_executes hlt).mpr hex) he
    | turn _ _ s1 _ _ _ _ hle hex he hr =>
        have hlt := hlater hex.top
        rw [← State.advanced_thrown hlt] at he
        rw [← State.advanced_turn hlt] at hr ⊢
        exact .turn ops (s.advanced a) s1 _ o s' trivial hle
          ((State.advanced_executes hlt).mpr hex) he hr

/-- An iteration due by `a` is due by `b`, and what `run_until(a)` leaves is left to
`run_until(b)`. -/
theorem join {log1 log2 : List Turn} {s1 : State P} (hab : a ≤ b)
    (h1 : RunUntil (fun _ _ => True) top a ops s log1 .returns s1)
    (h2 : RunUntil (fun _ _ => True) top b (ops ++ log1.map Turn.ops) s1 log2 o s') :
    RunUntil (fun _ _ => True) top b ops s (log1 ++ log2) o s' := by
  generalize hout : (Outcome.returns : Outcome P.Error) = o1 at h1
  induction h1 with
  | empty ops s hq =>
      rw [List.map_nil, List.append_nil] at h2
      exact (advanced hab (.inl hq)).mp h2
  | stop ops s htop _ hlt =>
      rw [List.map_nil, List.append_nil] at h2
      exact (advanced hab (.inr hlt)).mp h2
  | throws => cases hout
  | turn ops s s1 log o1 s1' _ hle hex he _ ih =>
      rw [List.map_cons, ← List.singleton_append, ← List.append_assoc] at h2
      exact .turn ops s s1 _ o s' trivial (Int.le_trans hle hab) hex he (ih h2 hout)

theorem join_throws {e : Exn P.Error} (hab : a ≤ b)
    (h : RunUntil (fun _ _ => True) top a ops s log (.throws e) s') :
    RunUntil (fun _ _ => True) top b ops s log (.throws e) s' := by
  generalize hout : (Outcome.throws e : Outcome P.Error) = o at h
  induction h with
  | empty => cases hout
  | stop => cases hout
  | throws ops s s1 e' _ hle hex he =>
      exact .throws ops s s1 e' trivial (Int.le_trans hle hab) hex he
  | turn ops s s1 log o s' _ hle hex he _ ih =>
      exact .turn ops s s1 log o s' trivial (Int.le_trans hle hab) hex he (ih hout)

/-- A run of `run_until(b)` can be paused at `a`: there it throws, or it returns and goes on. -/
theorem split (hab : a ≤ b) (h : RunUntil (fun _ _ => True) top b ops s log o s') :
    (∃ e, o = .throws e ∧ RunUntil (fun _ _ => True) top a ops s log (.throws e) s') ∨
    (∃ log1 log2 s1, log = log1 ++ log2 ∧
      RunUntil (fun _ _ => True) top a ops s log1 .returns s1 ∧
      RunUntil (fun _ _ => True) top b (ops ++ log1.map Turn.ops) s1 log2 o s') := by
  -- where `run_until(a)` stops at once, the whole run is left to `run_until(b)`
  have hrest : ∀ {ops : List (TokenId × List TokenId)} {s : State P} {log : List Turn}
      {o : Outcome P.Error} {s' : State P},
      RunUntil (fun _ _ => True) top b ops s log o s' →
      s.queue = [] ∨ (s.IsTop (top ops) ∧ a < (s.tokens (top ops)).time) →
      ∃ log1 log2 s1, log = log1 ++ log2 ∧
        RunUntil (fun _ _ => True) top a ops s log1 .returns s1 ∧
        RunUntil (fun _ _ => True) top b (ops ++ log1.map Turn.ops) s1 log2 o s' := by
    intro ops s log o s' h hstop
    refine ⟨[], log, s.advanced a, rfl, ?_, ?_⟩
    · cases hstop with
      | inl hq => exact .empty ops s hq
      | inr hlt => exact .stop ops s hlt.1 trivial hlt.2
    · rw [List.map_nil, List.append_nil]
      exact (advanced hab (hstop.imp_right And.right)).mpr h
  induction h with
  | empty ops s hq => exact .inr (hrest (.empty ops s hq) (.inl hq))
  | stop ops s htop _ hlt =>
      exact .inr (hrest (.stop ops s htop trivial hlt) (.inr ⟨htop, Int.lt_of_le_of_lt hab hlt⟩))
  | throws ops s s1 e _ hle hex he =>
      cases Int.lt_or_le a (s.tokens (top ops)).time with
      | inl hlt => exact .inr (hrest (.throws ops s s1 e trivial hle hex he) (.inr ⟨hex.top, hlt⟩))
      | inr hdue => exact .inl ⟨e, rfl, .throws ops s s1 e trivial hdue hex he⟩
  | turn ops s s1 log o s' _ hle hex he hr ih =>
      cases Int.lt_or_le a (s.tokens (top ops)).time with
      | inl hlt =>
          exact .inr (hrest (.turn ops s s1 log o s' trivial hle hex he hr) (.inr ⟨hex.top, hlt⟩))
      | inr hdue =>
          cases ih with
          | inl hthrow =>
              obtain ⟨e, rfl, hthrow⟩ := hthrow
              exact .inl ⟨e, rfl, .turn ops s s1 log _ s' trivial hdue hex he hthrow⟩
          | inr hpause =>
              obtain ⟨log1, log2, s2, rfl, h1, h2⟩ := hpause
              refine .inr ⟨s.turn (top ops) s1 :: log1, log2, s2, rfl,
                .turn ops s s1 log1 _ s2 trivial hdue hex he h1, ?_⟩
              rw [List.map_cons, ← List.singleton_append, ← List.append_assoc]
              exact h2

end RunUntil

/-! ### Any number of pauses -/

/-- A call of `run_until(t)` or `run_for(t)`. -/
inductive RunCall where
  | runUntil (t : Int)
  | runFor (t : Int)

/-- The deadline of the call, made at `now`. -/
def RunCall.deadline (now : Int) : RunCall → Int
  | .runUntil t => t
  | .runFor t => now + t

/-- The runs of a list of calls, one after the other. An exception goes to the program that
makes the calls, and the rest of them is not made. -/
inductive RunCalls (top : List (TokenId × List TokenId) → TokenId) :
    List RunCall → List (TokenId × List TokenId) → State P → List Turn →
      Outcome P.Error → State P → Prop where
  | done (ops s) : RunCalls top [] ops s [] .returns s
  | throws (call calls ops s log e s')
      (h : RunUntil (fun _ _ => True) top (call.deadline s.now) ops s log (.throws e) s') :
      RunCalls top (call :: calls) ops s log (.throws e) s'
  | next (call calls ops s log s1 log' o s')
      (h : RunUntil (fun _ _ => True) top (call.deadline s.now) ops s log .returns s1)
      (hr : RunCalls top calls (ops ++ log.map Turn.ops) s1 log' o s') :
      RunCalls top (call :: calls) ops s (log ++ log') o s'

namespace RunCalls

variable {top : List (TokenId × List TokenId) → TokenId} {b : Int} {call : RunCall}
  {calls : List RunCall} {ops : List (TokenId × List TokenId)} {s s' : State P}
  {log : List Turn} {o : Outcome P.Error}

/-- The first call may be left out when the others do what a single call does. -/
theorem cons {gone : List TokenId} {own : TokenId → Owner} (hs : s.Tidy False)
    (ho : Owned gone s own) (hcall : call.deadline s.now ≤ b)
    (hrest : ∀ {ops log o} {s1 s' : State P}, s1.Tidy False → (∃ own, Owned gone s1 own) →
      s1.now = max s.now (call.deadline s.now) →
      (RunCalls top calls ops s1 log o s' ↔ RunUntil (fun _ _ => True) top b ops s1 log o s')) :
    RunCalls top (call :: calls) ops s log o s' ↔
      RunUntil (fun _ _ => True) top b ops s log o s' := by
  constructor
  · intro h
    cases h with
    | throws _ _ _ _ _ _ _ h => exact h.join_throws hcall
    | next _ _ _ _ log1 s1 log2 _ _ h hr =>
        obtain ⟨hs1, hown1⟩ := h.owned hs ho
        exact h.join hcall ((hrest hs1 hown1 (h.clock hs ho)).mp hr)
  · intro h
    cases h.split hcall with
    | inl hthrow =>
        obtain ⟨e, rfl, hthrow⟩ := hthrow
        exact .throws call calls ops s log e s' hthrow
    | inr hpause =>
        obtain ⟨log1, log2, s1, rfl, h1, h2⟩ := hpause
        obtain ⟨hs1, hown1⟩ := h1.owned hs ho
        exact .next call calls ops s log1 s1 log2 o s' h1
          ((hrest hs1 hown1 (h1.clock hs ho)).mpr h2)

end RunCalls

end Cxxdes
