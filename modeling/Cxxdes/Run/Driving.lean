-- SUMMARY: However a simulation is driven (step, run, run_until, run_for), it executes the same tokens.
import Cxxdes.Run.Pausing
import Cxxdes.Run.Ties

/-!
# Driving

`step()`, `run()`, `run_until(t)` and `run_for(t)` are loops around `step()`. A driver is a list of
such calls; it catches the exceptions that leave them and goes on with the next call. A pause
moves the clock only, to a time before the next token, so that two drivers get the same iterations.
-/

namespace Cxxdes

variable {P : Program}

/-! ### Calls -/

/-- A call that the owner of an environment makes to let it go on. -/
inductive Call where
  | step
  | run
  | timed (call : RunCall)

/-- The runs of a loop around `step()` that goes on as long as `goes` is true of the token on
top. -/
inductive Loop (goes : State P → TokenId → Prop) (top : List (TokenId × List TokenId) → TokenId) :
    List (TokenId × List TokenId) → State P → List Turn → Outcome P.Error → State P → Prop where
  | stop (ops s) (h : s.queue = [] ∨ s.IsTop (top ops) ∧ ¬ goes s (top ops)) :
      Loop goes top ops s [] .returns s
  | throws (ops s s1 e) (hgoes : goes s (top ops)) (hex : s.Executes (top ops) s1)
      (he : s.thrown (top ops) = some e) :
      Loop goes top ops s [s.turn (top ops) s1] (.throws e) s1
  | turn (ops s s1 log o s') (hgoes : goes s (top ops)) (hex : s.Executes (top ops) s1)
      (he : s.thrown (top ops) = none)
      (hr : Loop goes top (ops ++ [(s.turn (top ops) s1).ops]) s1 log o s') :
      Loop goes top ops s (s.turn (top ops) s1 :: log) o s'

/-- How `step()` ends, with the exception that leaves it. -/
def Outcome.of {E : Type} : Option (Exn E) → Outcome E
  | none => .returns
  | some e => .throws e

/-- The runs of a call. `run()` is `while (step());`. -/
inductive Called (top : List (TokenId × List TokenId) → TokenId) :
    Call → List (TokenId × List TokenId) → State P → List Turn → Outcome P.Error →
      State P → Prop where
  | idle (ops s) (hq : s.queue = []) : Called top .step ops s [] .returns s
  | step (ops s s1) (hex : s.Executes (top ops) s1) :
      Called top .step ops s [s.turn (top ops) s1] (.of (s.thrown (top ops))) s1
  | run (ops s log o s') (h : Loop (fun _ _ => True) top ops s log o s') :
      Called top .run ops s log o s'
  | timed (call ops s log o s')
      (h : RunUntil (fun _ _ => True) top (call.deadline s.now) ops s log o s') :
      Called top (.timed call) ops s log o s'

/-- The iterations of a call, each with the exception that leaves it: an exception ends the call. -/
def Outcome.marked {E : Type} (o : Outcome E) : List Turn → List (Turn × Option (Exn E))
  | [] => []
  | [x] => [(x, match o with | .returns => none | .throws e => some e)]
  | x :: y :: log => (x, none) :: o.marked (y :: log)

/-- The runs of a driver: the calls are made one after the other, also after an exception. -/
inductive Drives (top : List (TokenId × List TokenId) → TokenId) :
    List Call → List (TokenId × List TokenId) → State P → List (Turn × Option (Exn P.Error)) →
      State P → Prop where
  | done (ops s) : Drives top [] ops s [] s
  | call (c calls ops s log o s1 log' s') (hc : Called top c ops s log o s1)
      (hr : Drives top calls (ops ++ log.map Turn.ops) s1 log' s') :
      Drives top (c :: calls) ops s (o.marked log ++ log') s'

/-! ### Iterations -/

/-- Iterations of `step()`, whatever call makes them. -/
inductive Iterates (top : List (TokenId × List TokenId) → TokenId) :
    List (TokenId × List TokenId) → State P → List (Turn × Option (Exn P.Error)) →
      State P → Prop where
  | refl (ops s) : Iterates top ops s [] s
  | step (ops s s1 log s') (hex : s.Executes (top ops) s1)
      (hr : Iterates top (ops ++ [(s.turn (top ops) s1).ops]) s1 log s') :
      Iterates top ops s ((s.turn (top ops) s1, s.thrown (top ops)) :: log) s'

variable {top : List (TokenId × List TokenId) → TokenId} {ops : List (TokenId × List TokenId)}
  {s s' s1 s2 r : State P} {t : TokenId} {log log' : List (Turn × Option (Exn P.Error))}

theorem Iterates.trans (h : Iterates top ops s log s1)
    (h' : Iterates top (ops ++ log.map fun x => x.1.ops) s1 log' s') :
    Iterates top ops s (log ++ log') s' := by
  induction h with
  | refl ops s => simpa using h'
  | step ops s s1 log s2 hex hr ih =>
      rw [List.map_cons, ← List.singleton_append, ← List.append_assoc] at h'
      exact .step ops s s1 (log ++ log') s' hex (ih h')

/-- Of two sequences of iterations one goes on where the other one ends. -/
theorem Iterates.comparable (h1 : Iterates top ops s log s1) (h2 : Iterates top ops s log' s2)
    (hs : Lone s) (hcur : s.current = none) :
    (∃ rest, log' = log ++ rest ∧ Iterates top (ops ++ log.map fun x => x.1.ops) s1 rest s2) ∨
    (∃ rest, log = log' ++ rest ∧ Iterates top (ops ++ log'.map fun x => x.1.ops) s2 rest s1) := by
  induction h1 generalizing log' s2 with
  | refl ops s => exact .inl ⟨log', rfl, by simpa using h2⟩
  | step ops s s1 log s' hex hr ih =>
      cases h2 with
      | refl => exact .inr ⟨_, rfl, by simpa using Iterates.step ops s s1 log s' hex hr⟩
      | step _ _ s1' log' _ hex' hr' =>
          obtain rfl := hex.unique hex' hs hcur
          refine (ih hr' (hex.lone hs hcur) hex.back).imp ?_ ?_
          · rintro ⟨rest, rfl, hrest⟩
            exact ⟨rest, rfl, by simpa using hrest⟩
          · rintro ⟨rest, rfl, hrest⟩
            exact ⟨rest, rfl, by simpa using hrest⟩

/-! ### Pauses -/

/-- The states differ in the clock only, and no longer when the next token `t` is taken. -/
def Paused (t : TokenId) (r s : State P) : Prop :=
  { r with now := s.now } = s ∧ (r.queue ≠ [] → r.pop t = s.pop t)

namespace Paused

theorem refl (t : TokenId) (s : State P) : Paused t s s := ⟨rfl, fun _ => rfl⟩

theorem queue (h : Paused t r s) : s.queue = r.queue := by
  rw [← h.1]

theorem symm (h : Paused t r s) : Paused t s r := by
  refine ⟨?_, fun hne => (h.2 (h.queue ▸ hne)).symm⟩
  rw [← h.1]

theorem trans (h : Paused t r s) (h' : Paused t s s') : Paused t r s' := by
  refine ⟨?_, fun hne => (h.2 hne).trans (h'.2 (h.queue ▸ hne))⟩
  rw [← h'.1, ← h.1]

/-- A pause that ends before the next token. -/
theorem advanced {a : Int} (ha : s.queue = [] ∨ a < (s.tokens t).time) :
    Paused t s (s.advanced a) :=
  ⟨rfl, fun hne => (State.advanced_pop (ha.resolve_left hne)).symm⟩

/-- `step()` does the same before and after a pause. -/
theorem executes (h : Paused t r s) (hex : s.Executes t s1) :
    r.Executes t s1 ∧ s.thrown t = r.thrown t ∧ s.turn t s1 = r.turn t s1 := by
  obtain ⟨hs, hpop⟩ := h
  have hpop := hpop (by rw [← hs] at hex; exact hex.top.queue_ne)
  obtain ⟨htop, ⟨s0, hstep, hfits, hruns⟩, hback⟩ := hex
  have hstep' : r.step t = .ok s0 := by
    rw [← hstep]
    unfold State.step
    rw [hpop, ← hs]
  refine ⟨⟨?_, ⟨s0, hstep', hfits, hruns⟩, hback⟩, ?_, ?_⟩
  · rw [← hs] at htop
    exact htop
  · unfold State.thrown
    rw [hpop, ← hs]
  · unfold State.turn
    rw [hpop, ← hs]

end Paused

/-! ### Calls as iterations -/

variable {o : Outcome P.Error} {turns : List Turn}

theorem Outcome.marked_ops (o : Outcome P.Error) (turns : List Turn) :
    ((o.marked turns).map fun x => x.1.ops) = turns.map Turn.ops := by
  induction turns with
  | nil => rfl
  | cons x turns ih =>
      cases turns with
      | nil => rfl
      | cons y turns => simp only [Outcome.marked, List.map_cons] at ih ⊢; rw [ih]

/-- An iteration that does not throw, before a loop that goes on. -/
theorem Outcome.marked_cons (o : Outcome P.Error) (x : Turn) (turns : List Turn)
    (ho : turns = [] → o = .returns) : o.marked (x :: turns) = (x, none) :: o.marked turns := by
  cases turns with
  | nil => rw [ho rfl]; rfl
  | cons y turns => rfl

variable {goes : State P → TokenId → Prop}

theorem Loop.returns_of_nil (h : Loop goes top ops s turns o s') : turns = [] → o = .returns := by
  cases h with
  | stop => exact fun _ => rfl
  | throws | turn => exact fun hn => absurd hn (List.cons_ne_nil _ _)

theorem Loop.iterates (h : Loop goes top ops s turns o s') :
    Iterates top ops s (o.marked turns) s' := by
  induction h with
  | stop ops s => exact .refl ops s
  | throws ops s s1 e _ hex he =>
      have hr := Iterates.step ops s s1 [] s1 hex (.refl _ s1)
      rw [he] at hr
      exact hr
  | turn ops s s1 log o s' _ hex he hr ih =>
      rw [Outcome.marked_cons o _ log hr.returns_of_nil, ← he]
      exact .step ops s s1 _ s' hex ih

/-- The test of `run_until(b)`. -/
def State.DueFor (b : Int) (s : State P) (t : TokenId) : Prop :=
  (s.tokens t).time ≤ b

/-- `run_until` is a loop, and then it moves the clock to a time before the next token. -/
theorem RunUntil.loop {b : Int} (h : RunUntil (fun _ _ => True) top b ops s turns o s') :
    ∃ r, Loop (State.DueFor b) top ops s turns o r ∧
      Paused (top (ops ++ turns.map Turn.ops)) r s' := by
  induction h with
  | empty ops s hq =>
      exact ⟨s, .stop ops s (.inl hq), Paused.advanced (.inl hq)⟩
  | stop ops s htop _ hlt =>
      refine ⟨s, .stop ops s (.inr ⟨htop, Int.not_le.mpr hlt⟩),
        Paused.advanced (.inr ?_)⟩
      rw [List.map_nil, List.append_nil]
      exact hlt
  | throws ops s s1 e _ hle hex he => exact ⟨s1, .throws ops s s1 e hle hex he, .refl _ s1⟩
  | turn ops s s1 log o s' _ hle hex he _ ih =>
      obtain ⟨r, hr, hp⟩ := ih
      refine ⟨r, .turn ops s s1 log o r hle hex he hr, ?_⟩
      rw [List.map_cons, ← List.singleton_append, ← List.append_assoc]
      exact hp

theorem Loop.runUntil {b : Int} (h : Loop (State.DueFor b) top ops s turns o r) :
    ∃ s', RunUntil (fun _ _ => True) top b ops s turns o s' ∧
      Paused (top (ops ++ turns.map Turn.ops)) r s' := by
  induction h with
  | stop ops s h =>
      refine ⟨s.advanced b, ?_, Paused.advanced ?_⟩
      · rcases h with hq | ⟨htop, hlt⟩
        · exact .empty ops s hq
        · exact .stop ops s htop trivial (Int.not_le.mp hlt)
      · rw [List.map_nil, List.append_nil]
        exact h.imp_right fun h => Int.not_le.mp h.2
  | throws ops s s1 e hle hex he => exact ⟨s1, .throws ops s s1 e trivial hle hex he, .refl _ s1⟩
  | turn ops s s1 log o r hle hex he _ ih =>
      obtain ⟨s', hr, hp⟩ := ih
      refine ⟨s', .turn ops s s1 log o s' trivial hle hex he hr, ?_⟩
      rw [List.map_cons, ← List.singleton_append, ← List.append_assoc]
      exact hp

theorem Called.iterates {c : Call} (h : Called top c ops s turns o s') :
    ∃ r, Iterates top ops s (o.marked turns) r ∧
      Paused (top (ops ++ turns.map Turn.ops)) r s' := by
  cases h with
  | idle _ _ hq => exact ⟨s, .refl ops s, .refl _ s⟩
  | step _ _ _ hex =>
      refine ⟨s', ?_, .refl _ s'⟩
      have hr := Iterates.step ops s s' [] s' hex (.refl _ s')
      cases hthrown : s.thrown (top ops) with
      | none | some e =>
          rw [hthrown] at hr
          exact hr
  | run _ _ _ _ _ h => exact ⟨s', h.iterates, .refl _ s'⟩
  | timed call _ _ _ _ _ h =>
      obtain ⟨r, hr, hp⟩ := h.loop
      exact ⟨r, hr.iterates, hp⟩

/-- Iterations go on after a pause as they do without it. -/
theorem Paused.iterates (h : Paused (top ops) r s) (hit : Iterates top ops s log s') :
    ∃ r', Iterates top ops r log r' ∧ Paused (top (ops ++ log.map fun x => x.1.ops)) r' s' := by
  cases hit with
  | refl =>
      refine ⟨r, .refl ops r, ?_⟩
      rw [List.map_nil, List.append_nil]
      exact h
  | step _ _ s1 log _ hex hr =>
      obtain ⟨hex', hthrown, hturn⟩ := h.executes hex
      rw [hturn] at hr
      rw [hthrown, hturn]
      exact ⟨s', .step ops r s1 log s' hex' hr, .refl _ s'⟩

/-- A driver makes iterations and pauses. -/
theorem Drives.iterates {calls : List Call} (h : Drives top calls ops s log s') :
    ∃ r, Iterates top ops s log r ∧ Paused (top (ops ++ log.map fun x => x.1.ops)) r s' := by
  induction h with
  | done ops s => exact ⟨s, .refl ops s, .refl _ s⟩
  | call c calls ops s turns o s1 log' s' hc hr ih =>
      obtain ⟨r1, hit1, hp1⟩ := hc.iterates
      obtain ⟨r2, hit2, hp2⟩ := ih
      obtain ⟨r3, hit3, hp3⟩ := hp1.iterates hit2
      rw [← o.marked_ops turns] at hit3 hp2 hp3
      refine ⟨r3, hit1.trans hit3, ?_⟩
      rw [List.map_append, ← List.append_assoc]
      exact hp3.trans hp2

/-! ### No call hangs -/

/-- Where the iterations come to an end, a loop stops at the end, at its test, or at the first
exception. -/
theorem Iterates.loop (h : Iterates top ops r log s') (hend : s'.queue = [])
    (goes : State P → TokenId → Prop) : ∃ turns o r1 rest, Loop goes top ops r turns o r1 ∧
      log = o.marked turns ++ rest ∧ Iterates top (ops ++ turns.map Turn.ops) r1 rest s' := by
  induction h with
  | refl ops r =>
      refine ⟨[], .returns, r, [], .stop ops r (.inl hend), rfl, ?_⟩
      rw [List.map_nil, List.append_nil]
      exact .refl ops r
  | step ops r r1 log s' hex hr ih =>
      by_cases hgoes : goes r (top ops)
      · cases he : r.thrown (top ops) with
        | some e => exact ⟨_, .throws e, r1, log, .throws ops r r1 e hgoes hex he, rfl, hr⟩
        | none =>
            obtain ⟨turns, o, r2, rest, hloop, rfl, hit⟩ := ih hend
            refine ⟨_, o, r2, rest, .turn ops r r1 turns o r2 hgoes hex he hloop, ?_, ?_⟩
            · rw [Outcome.marked_cons o _ turns hloop.returns_of_nil]
              rfl
            · rw [List.map_cons, ← List.singleton_append, ← List.append_assoc]
              exact hit
      · refine ⟨[], .returns, r, _, .stop ops r (.inr ⟨hex.top, hgoes⟩), rfl, ?_⟩
        rw [List.map_nil, List.append_nil]
        exact .step ops r r1 log s' hex hr

theorem Iterates.called (h : Iterates top ops s log s') (hend : s'.queue = []) (c : Call) :
    ∃ turns o s1 rest s2, Called top c ops s turns o s1 ∧ log = o.marked turns ++ rest ∧
      Iterates top (ops ++ turns.map Turn.ops) s1 rest s2 ∧ s2.queue = [] := by
  cases c with
  | step =>
      cases h with
      | refl =>
          refine ⟨[], .returns, s, [], s, .idle ops s hend, rfl, ?_, hend⟩
          rw [List.map_nil, List.append_nil]
          exact .refl ops s
      | step _ _ s1 log _ hex hr =>
          refine ⟨_, _, s1, log, s', .step ops s s1 hex, ?_, hr, hend⟩
          cases s.thrown (top ops) <;> rfl
  | run =>
      obtain ⟨turns, o, s1, rest, hloop, hlog, hr⟩ := h.loop hend fun _ _ => True
      exact ⟨turns, o, s1, rest, s', .run ops s turns o s1 hloop, hlog, hr, hend⟩
  | timed call =>
      obtain ⟨turns, o, r, rest, hloop, hlog, hr⟩ :=
        h.loop hend (State.DueFor (call.deadline s.now))
      obtain ⟨s1, huntil, hp⟩ := hloop.runUntil
      obtain ⟨s2, hr2, hp2⟩ := hp.symm.iterates hr
      exact ⟨turns, o, s1, rest, s2, .timed call ops s turns o s1 huntil, hlog, hr2,
        hp2.queue.symm.trans hend⟩

/-- Where the iterations come to an end, every driver does. -/
theorem Iterates.drives (h : Iterates top ops s log s') (hend : s'.queue = []) (calls : List Call) :
    ∃ log' s2, Drives top calls ops s log' s2 := by
  induction calls generalizing ops s log s' with
  | nil => exact ⟨[], s, .done ops s⟩
  | cons c calls ih =>
      obtain ⟨turns, o, s1, rest, s2, hc, -, hr, hend2⟩ := h.called hend c
      obtain ⟨log', s3, hd⟩ := ih hr hend2
      exact ⟨_, s3, .call c calls ops s turns o s1 log' s3 hc hd⟩

/-! ### Two drivers -/

/-- Of two drivers one makes the iterations of the other one, and maybe more. -/
theorem Drives.comparable {calls calls' : List Call} (h1 : Drives top calls ops s log s1)
    (h2 : Drives top calls' ops s log' s2) (hs : Lone s) (hcur : s.current = none) :
    (log <+: log' ∨ log' <+: log) ∧ (log = log' → { s1 with now := s2.now } = s2) := by
  obtain ⟨r1, hit1, hp1⟩ := h1.iterates
  obtain ⟨r2, hit2, hp2⟩ := h2.iterates
  have hcmp := hit1.comparable hit2 hs hcur
  refine ⟨hcmp.imp (fun ⟨rest, h, _⟩ => ⟨rest, h.symm⟩) fun ⟨rest, h, _⟩ => ⟨rest, h.symm⟩, ?_⟩
  rintro rfl
  have heq : r1 = r2 := by
    rcases hcmp with ⟨rest, hlog, hrest⟩ | ⟨rest, hlog, hrest⟩ <;>
      obtain rfl := List.append_right_eq_self.mp hlog.symm <;> cases hrest <;> rfl
  rw [← heq] at hp2
  exact (hp1.symm.trans hp2).1

/-- A driver that has left nothing pending has made all iterations. -/
theorem Drives.prefix_of_end {calls calls' : List Call} (h1 : Drives top calls ops s log s1)
    (h2 : Drives top calls' ops s log' s2) (hs : Lone s) (hcur : s.current = none)
    (hend : s1.queue = []) : log' <+: log := by
  obtain ⟨r1, hit1, hp1⟩ := h1.iterates
  obtain ⟨r2, hit2, -⟩ := h2.iterates
  rcases hit1.comparable hit2 hs hcur with ⟨rest, rfl, hrest⟩ | ⟨rest, rfl, -⟩
  · cases hrest with
    | refl => exact ⟨[], by simp⟩
    | step _ _ _ _ _ hex => exact absurd (hp1.queue.symm.trans hend) hex.top.queue_ne
  · exact List.prefix_append log' rest

/-! ### simulation -/

/-- `simulation<Derived>`, with the process that `co_main()` makes. -/
structure Simulation (P : Program) where
  env : State P
  coMain : P.User
  bound_ : Bool := false

/-- A call of the owner of a simulation; `env` is public. -/
inductive SimCall where
  | run
  | runFor (t : Int)
  | env (c : Call)

def SimCall.call : SimCall → Call
  | .run => .run
  | .runFor t => .timed (.runFor t)
  | .env c => c

namespace Simulation

/-- `simulation::bind`. -/
def bind (sim : Simulation P) : Simulation P :=
  if !sim.bound_ then
    { sim with env := sim.env.bind (.call sim.coMain {}), bound_ := true }
  else
    sim

/-- What `run()` and `run_for(t)` do before they go to the environment. -/
def enter (sim : Simulation P) : SimCall → Simulation P
  | .run | .runFor _ => sim.bind
  | .env _ => sim

/-- The runs of a driver of a simulation. -/
inductive Drives (top : List (TokenId × List TokenId) → TokenId) :
    List SimCall → List (TokenId × List TokenId) → Simulation P →
      List (Turn × Option (Exn P.Error)) → Simulation P → Prop where
  | done (ops sim) : Drives top [] ops sim [] sim
  | call (c calls ops sim log o s1 log' sim')
      (hc : Called top c.call ops (sim.enter c).env log o s1)
      (hr : Drives top calls (ops ++ log.map Turn.ops) { sim.enter c with env := s1 } log' sim') :
      Drives top (c :: calls) ops sim (o.marked log ++ log') sim'

/-- `co_main()` is bound by the first of the calls, or before them. -/
def Begins (sim : Simulation P) : List SimCall → Prop
  | [] => sim.bound_ = true
  | c :: _ => (sim.enter c).bound_ = true

variable {sim sim1 sim2 : Simulation P} {calls calls' : List SimCall}

theorem bind_bound (sim : Simulation P) : sim.bind.bound_ = true := by
  unfold bind
  cases h : sim.bound_ <;> simp [h]

theorem bind_of_bound (h : sim.bound_ = true) : sim.bind = sim := by
  simp [bind, h]

theorem enter_of_bound (h : sim.bound_ = true) (c : SimCall) : sim.enter c = sim := by
  cases c with
  | run | runFor => exact bind_of_bound h
  | env => rfl

theorem Begins.enter {c : SimCall} (h : sim.Begins (c :: calls)) : sim.enter c = sim.bind := by
  cases c with
  | run | runFor => rfl
  | env => exact (bind_of_bound h).symm

/-- Once `co_main()` is bound, a driver of the simulation is one of its environment. -/
theorem Drives.env (h : sim.Drives top calls ops log sim1) (hb : sim.bound_ = true) :
    Cxxdes.Drives top (calls.map SimCall.call) ops sim.env log sim1.env ∧
      sim1 = { sim with env := sim1.env } := by
  induction h with
  | done ops sim => exact ⟨.done ops sim.env, rfl⟩
  | call c calls ops sim turns o s1 log' sim' hc hr ih =>
      rw [enter_of_bound hb] at hc hr ih
      obtain ⟨hd, heq⟩ := ih hb
      exact ⟨.call c.call _ ops sim.env turns o s1 log' sim'.env hc hd, heq⟩

theorem Drives.of_env {s' : State P}
    (h : Cxxdes.Drives top (calls.map SimCall.call) ops sim.env log s') (hb : sim.bound_ = true) :
    sim.Drives top calls ops log { sim with env := s' } := by
  induction calls generalizing ops sim log with
  | nil =>
      cases h
      exact .done ops sim
  | cons c calls ih =>
      cases h with
      | call _ _ _ _ turns o s1 log' _ hc hr =>
          rw [← enter_of_bound hb c] at hc
          refine .call c calls ops sim turns o s1 log' _ hc ?_
          rw [enter_of_bound hb]
          exact ih hr hb

theorem Begins.drives_iff (h : sim.Begins calls) :
    sim.Drives top calls ops log sim1 ↔ sim.bind.Drives top calls ops log sim1 := by
  cases calls with
  | nil => rw [bind_of_bound h]
  | cons c calls =>
      have henter : sim.enter c = sim.bind.enter c := by
        rw [h.enter, enter_of_bound sim.bind_bound]
      constructor
      · rintro (_ | ⟨_, _, _, _, turns, o, s1, log', _, hc, hr⟩)
        rw [henter] at hc hr
        exact .call c calls ops sim.bind turns o s1 log' sim1 hc hr
      · rintro (_ | ⟨_, _, _, _, turns, o, s1, log', _, hc, hr⟩)
        rw [← henter] at hc hr
        exact .call c calls ops sim turns o s1 log' sim1 hc hr

theorem bind_lone (h : Lone sim.env) (hcur : sim.env.current = none) :
    Lone sim.bind.env ∧ sim.bind.env.current = none := by
  unfold bind
  cases sim.bound_ with
  | true => exact ⟨h, hcur⟩
  | false =>
      have he : Edits none 0 False sim.env (sim.env.bind (.call sim.coMain {})) :=
        bind_call_edits h.tidy _ fun hf => hf.elim
      obtain ⟨gone, own, ho⟩ := h.owned
      obtain ⟨own', ho'⟩ := ho.edits he
      exact ⟨⟨Edits.tidy he h.tidy, ⟨gone, own', ho'⟩, h.sole.edits he⟩,
        (Edits.ext he).current.trans hcur⟩

/-- However a simulation is driven, it is the same run: of two drivers that let `co_main()` begin,
with any calls in any order, which catch the exceptions and go on, one makes the iterations of the
other one, at the same times and with the same exceptions, and maybe more; with the same iterations
they leave the same simulation, up to the clock. Where one of them leaves nothing pending no call of
the other one hangs, and the other one makes no more iterations. -/
theorem driving (h : Reachable (fun s l => ∀ t, l = .step t → s.current = none) sim.env)
    (hcur : sim.env.current = none) (hc : sim.Begins calls) (hc' : sim.Begins calls')
    (h1 : sim.Drives top calls [] log sim1) :
    (∀ log' sim2, sim.Drives top calls' [] log' sim2 →
      (log <+: log' ∨ log' <+: log) ∧
        (log = log' → { sim1 with env := { sim1.env with now := sim2.env.now } } = sim2)) ∧
    (sim1.env.queue = [] →
      (∃ log' sim2, sim.Drives top calls' [] log' sim2) ∧
        ∀ log' sim2, sim.Drives top calls' [] log' sim2 → log' <+: log) := by
  obtain ⟨hs, hcur⟩ := bind_lone h.lone hcur
  obtain ⟨hd1, heq1⟩ := (hc.drives_iff.mp h1).env sim.bind_bound
  refine ⟨fun log' sim2 h2 => ?_, fun hend => ⟨?_, fun log' sim2 h2 => ?_⟩⟩
  · obtain ⟨hd2, heq2⟩ := (hc'.drives_iff.mp h2).env sim.bind_bound
    obtain ⟨hcmp, hsame⟩ := hd1.comparable hd2 hs hcur
    refine ⟨hcmp, fun hlog => ?_⟩
    rw [heq2, heq1, ← hsame hlog]
  · obtain ⟨r, hit, hp⟩ := hd1.iterates
    obtain ⟨log', s2, hd2⟩ := hit.drives (hp.queue.symm.trans hend) (calls'.map SimCall.call)
    exact ⟨log', _, hc'.drives_iff.mpr (Drives.of_env hd2 sim.bind_bound)⟩
  · obtain ⟨hd2, -⟩ := (hc'.drives_iff.mp h2).env sim.bind_bound
    exact hd1.prefix_of_end hd2 hs hcur hend

end Simulation

/-- A process that waits for five ticks, as often as its state says. -/
def ticker : Program where
  User := Nat
  Body := Nat
  Memory := Unit
  Value := Unit
  Error := Unit
  start := id
  next n m _ := (m, match n with
    | 0 => .coReturn none
    | n + 1 => .await (.timeout true 5 PriorityConsts.inherit none) fun _ => n)

namespace ticker

/-- A simulation whose `co_main()` returns at once. -/
def quick : Simulation ticker := { env := State.init (), coMain := (0 : Nat) }

def quickStarted : State ticker :=
  ({ quick.bind.env.pop 0 with current := some 0 }.setStatus 0 (.running (.user (0 : Nat)))).log
    (.started 0 0)

def quickEnded : State ticker :=
  (quickStarted.setCoro 0 { quickStarted.coros 0 with returnValue := none }).doReturn 0
    (.ok (.ofReturn none))

/-- The token that reports its end has been executed. -/
def quickOver : State ticker := quickEnded.pop 1

theorem quick_executes : quick.bind.env.Executes 0 quickEnded where
  top := State.isTop_singleton rfl
  run := ⟨quickStarted, rfl, by decide,
    (Transition.Runs.refl quickStarted).tail ⟨0, rfl⟩ (.exec _ _ _ rfl (by decide))⟩
  back := rfl

theorem quickEnded_executes : quickEnded.Executes 1 quickOver where
  top := State.isTop_singleton rfl
  run := ⟨quickOver, rfl, by decide, .refl quickOver⟩
  back := rfl

/-- `run()`. -/
theorem quick_run : quick.Drives List.length [.run] []
    [(quick.bind.env.turn 0 quickEnded, none), (quickEnded.turn 1 quickOver, none)]
    { quick.bind with env := quickOver } :=
  .call .run [] [] quick _ .returns quickOver [] _
    (.run [] quick.bind.env _ .returns quickOver
      (.turn [] quick.bind.env quickEnded _ .returns quickOver trivial quick_executes rfl
        (.turn _ quickEnded quickOver [] .returns quickOver trivial quickEnded_executes rfl
          (.stop _ quickOver (.inl rfl)))))
    (.done _ _)

end ticker

/-- `run()` ends after two tokens, and so does any other driver. -/
theorem driving_ticker :
    (∃ log' sim2, ticker.quick.Drives List.length [.runFor 3, .env .step, .run] [] log' sim2) ∧
      ∀ log' sim2, ticker.quick.Drives List.length [.runFor 3, .env .step, .run] [] log' sim2 →
        log' <+: [(ticker.quick.bind.env.turn 0 ticker.quickEnded, none),
          (ticker.quickEnded.turn 1 ticker.quickOver, none)] := by
  have hreach : Reachable (fun s l => ∀ t, l = .step t → s.current = none) ticker.quick.env :=
    Reachable.init (P := ticker) ()
  have hone : ticker.quick.Begins [.run] := rfl
  have hother : ticker.quick.Begins [.runFor 3, .env .step, .run] := rfl
  exact (Simulation.driving hreach rfl hone hother ticker.quick_run).2 rfl

end Cxxdes
