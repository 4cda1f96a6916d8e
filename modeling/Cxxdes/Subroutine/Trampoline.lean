-- SUMMARY: Processes with subroutines run like their inlined versions, in every environment.
import Cxxdes.Run.Order
import Cxxdes.Subroutine.Refine

/-!
# Trampolined processes

The nested evaluation of machines is a view of the program `trampoline S`, so an
environment of processes with call stacks reaches the same states as one whose
processes evaluate their calls directly. The machines of such an environment stay
well formed, which is what keeps the loop of `resume()` right.
-/

namespace Cxxdes

variable {S : SubProgram} {m : Machine S}

namespace Machine

theorem start_stacked (u : S.User) : (start (S := S) u).Stacked 0 [] where
  stack := rfl
  fresh := by simp [start]
  nodup := by simp
  linked := trivial

theorem start_ok (u : S.User) : (start (S := S) u).Ok :=
  ⟨0, [], start_stacked u, .inl ⟨S.start u, rfl⟩⟩

theorem Stacked.runTop_eq {top : FrameId} {rest : List FrameId} (h : m.Stacked top rest)
    {b : S.Body} (hb : m.frames top = .running b) (mem : S.Memory) (now : Int) :
    m.runTop mem now = ((S.next b mem now).1, m.act top b (S.next b mem now).2) := by
  unfold runTop
  simp only [h.stack, hb]

/-! ### The end of a frame -/

theorem Stacked.leave_last {top : FrameId} (h : m.Stacked top [])
    (hflag : m.shouldContinue = false) (b : S.Body) (r : Result S.Value S.Error)
    (a : Action S.User (Machine S) S.Value S.Error) : m.leave top b r a = a := by
  unfold leave
  simp [h.stack, hflag]

theorem Stacked.leave_called {top j : FrameId} {js : List FrameId} (h : m.Stacked top (j :: js))
    (b : S.Body) (r : Result S.Value S.Error)
    (a : Action S.User (Machine S) S.Value S.Error) :
    m.leave top b r a = .tau (m.finish top b r) := by
  unfold leave
  simp [h.stack]

/-- The end of a frame is the end of its call in the nested evaluation. -/
theorem Stacked.leave {top : FrameId} {rest : List FrameId} (h : m.Stacked top rest)
    (hflag : m.shouldContinue = false) {b : S.Body} {mem mem' : S.Memory} {now : Int}
    {r : Result S.Value S.Error} {a : Action S.User (Machine S) S.Value S.Error}
    (ha : a.All Ok) (hb : (Inlined.body b).next mem now = (mem', a.map inline))
    (hw : ∀ k, (Inlined.within (.body b) k).next mem now = (mem', .tau (.body (k r)))) :
    (m.leave top b r a).All Ok ∧
      (m.plug rest (.body b)).next mem now = (mem', (m.leave top b r a).map inline) := by
  cases rest with
  | nil =>
      rw [h.leave_last hflag]
      exact ⟨ha, hb⟩
  | cons j js =>
      obtain ⟨k, hk⟩ := h.linked.1
      obtain ⟨hok, hin⟩ := h.finish b r hk
      rw [h.leave_called, plug_calling hk, h.linked.2.plug_next (hw k) rfl]
      refine ⟨hok, ?_⟩
      simp only [Action.map, hin]

/-! ### The running frame -/

/-- What the running frame does is what the nested evaluation does. -/
theorem Stacked.act {top : FrameId} {rest : List FrameId} (h : m.Stacked top rest)
    (hflag : m.shouldContinue = false) (b : S.Body) (mem : S.Memory) (now : Int) :
    (m.act top b (S.next b mem now).2).All Ok ∧
      (m.plug rest (.body b)).next mem now =
        ((S.next b mem now).1, (m.act top b (S.next b mem now).2).map inline) := by
  have hgo := fun b' => h.enter b' hflag
  have hre := fun k r => h.reenter hflag k r
  cases hact : (S.next b mem now).2 with
  | call g k =>
      have hb : (Inlined.body b).next mem now =
          ((S.next b mem now).1, .tau (.within (.body g) k)) := by
        simp only [Inlined.next, hact]
      refine ⟨(h.call g k).1, ?_⟩
      rw [h.linked.plug_next hb rfl]
      simp only [Machine.act, Action.map, (h.call g k).2]
  | act a =>
      have hb : (Inlined.body b).next mem now = ((S.next b mem now).1, a.map .body) := by
        simp only [Inlined.next, hact]
      cases a with
      | coReturn v =>
          exact h.leave hflag trivial hb fun k => by simp only [Inlined.next, hact, Action.map]
      | throw e =>
          exact h.leave hflag trivial hb fun k => by simp only [Inlined.next, hact, Action.map]
      | await a k =>
          refine ⟨fun r => (hre k r).1, ?_⟩
          rw [h.linked.plug_next hb rfl]
          simp only [Machine.act, Action.map, (hre _ _).2]
      | tau b' =>
          refine ⟨(hgo b').1, ?_⟩
          rw [h.linked.plug_next hb rfl]
          simp only [Machine.act, Action.map, (hgo _).2]
      | create f o k =>
          refine ⟨fun p => (hgo (k p)).1, ?_⟩
          rw [h.linked.plug_next hb rfl]
          simp only [Machine.act, Action.map, (hgo _).2]
      | declare p k =>
          refine ⟨fun o => (hgo (k o)).1, ?_⟩
          rw [h.linked.plug_next hb rfl]
          simp only [Machine.act, Action.map, (hgo _).2]
      | move o k =>
          refine ⟨fun r => (hgo (k r)).1, ?_⟩
          rw [h.linked.plug_next hb rfl]
          simp only [Machine.act, Action.map, (hgo _).2]
      | bind p k =>
          refine ⟨fun r => (hgo (k r)).1, ?_⟩
          rw [h.linked.plug_next hb rfl]
          simp only [Machine.act, Action.map, (hgo _).2]

/-! ### The view -/

/-- Steps of the loop before the top frame runs on. -/
def rank (m : Machine S) : Nat :=
  match m.control with
  | .check => 2
  | .loop _ => 1
  | _ => 0

/-- A step of a well-formed machine keeps it well formed, and it is a step of the
nested evaluation or a silent step of the loop. -/
theorem Ok.next (h : m.Ok) (mem : S.Memory) (now : Int) :
    (m.next mem now).2.All Ok ∧
      ((∃ m', m.next mem now = (mem, .tau m') ∧ m'.inline = m.inline ∧ m'.rank < m.rank) ∨
        m.inline.next mem now = ((m.next mem now).1, (m.next mem now).2.map inline)) := by
  cases hc : m.control with
  | loop r =>
      obtain ⟨hok, hin⟩ := resumeTop_ok h hc
      have hnext : m.next mem now = (mem, .tau (m.resumeTop r)) := by
        unfold Machine.next; rw [hc]
      have hctl : (m.resumeTop r).control = .inside := resumeTop_inside h hc
      rw [hnext]
      refine ⟨hok, .inl ⟨_, rfl, hin, ?_⟩⟩
      simp [rank, hc, hctl]
  | inside =>
      obtain ⟨top, rest, hs, ht⟩ := h
      unfold TopOk at ht
      rw [hc] at ht
      obtain ⟨hflag, b, hb⟩ := ht
      have hnext : m.next mem now =
          ((S.next b mem now).1, m.act top b (S.next b mem now).2) := by
        unfold Machine.next; rw [hc]; exact hs.runTop_eq hb mem now
      have hin : m.inline = m.plug rest (.body b) := by
        rw [hs.inline_eq]
        unfold bodyOf
        rw [hb]
      rw [hnext, hin]
      exact ⟨(hs.act hflag b mem now).1, .inr (hs.act hflag b mem now).2⟩
  | check =>
      obtain ⟨hok, hin, hctl⟩ := checkLoop_ok h hc
      have hnext : m.next mem now = (mem, .tau m.checkLoop) := by
        unfold Machine.next; rw [hc]
      rw [hnext]
      refine ⟨hok, .inl ⟨_, rfl, hin, ?_⟩⟩
      simp [rank, hc, hctl]
  | returned | stuck =>
      obtain ⟨top, rest, hs, ht⟩ := h
      unfold TopOk at ht
      rw [hc] at ht
      exact ht.elim

/-- The nested evaluation of the machines. -/
def evaluation (S : SubProgram) : View (trampoline S) where
  Body := Inlined S
  start u := .body (S.start u)
  next := Inlined.next
  view := inline
  Ok := Ok
  rank := rank
  view_start _ := rfl
  ok_start := start_ok
  ok_next _ mem now h := (h.next mem now).1
  step _ mem now h := (h.next mem now).2

/-! ### The loop of `resume()` -/

/-- What the loop of `resume()` does with the frames of a machine. -/
structure Regular (m : Machine S) : Prop where
  /-- The loop resumes the top frame and runs it on. This frame is not finished, and it
  waits for a token only if `step()` has executed that token. -/
  resumes : ∀ r, m.control = .loop r → ∃ top rest b, m.callStack = top :: rest ∧
    m.resumeTop r = ({ m with shouldContinue := false }).enter top b ∧
    (∀ b' r', m.frames top ≠ .done b' r') ∧ ∀ k, m.frames top = .waiting k → r.isSome
  /-- After a call or a return the loop goes on, and the top frame waits for no token. -/
  goesOn : m.control = .check → m.checkLoop.control = .loop none ∧
    ∃ top rest, m.callStack = top :: rest ∧ ∀ k, m.frames top ≠ .waiting k
  /-- When the running frame suspends on another awaitable the loop stops, and the next
  `resume()` runs the same frame on as if it had not been suspended. -/
  stops : m.control = .inside → ∃ top rest b, m.callStack = top :: rest ∧
    m.frames top = .running b ∧ ∀ k, (m.suspendTop top k).checkLoop.control = .returned ∧
      ∀ r, ((m.suspendTop top k).checkLoop.reenter r).resumeTop (some r) = m.enter top (k r)
  /-- The process ends only with its first frame, and then the loop stops too. -/
  ends : ∀ mem now, (m.next mem now).2.ends = true →
    m.callStack.length = 1 ∧ m.shouldContinue = false
  /-- The machine is never stuck, and never left while its body is to go on. -/
  running : m.control ≠ .stuck ∧ m.control ≠ .returned

theorem Ok.regular (h : m.Ok) : m.Regular where
  resumes r hc := by
    obtain ⟨top, rest, hs, ht⟩ := h
    refine ⟨top, rest, m.bodyOf top, hs.stack, resumeTop_eq hs hc ht, ?_, ?_⟩
    · unfold TopOk at ht
      rw [hc] at ht
      intro b' r' hd
      cases r with
      | none => simp [Resumable, hd] at ht
      | some r => simp [hd] at ht
    · unfold TopOk at ht
      rw [hc] at ht
      intro k hk
      cases r with
      | none => simp [Resumable, hk] at ht
      | some r => rfl
  goesOn hc := by
    refine ⟨(checkLoop_ok h hc).2.2, ?_⟩
    obtain ⟨top, rest, hs, ht⟩ := h
    unfold TopOk at ht
    rw [hc] at ht
    refine ⟨top, rest, hs.stack, fun k hk => ?_⟩
    simp [Resumable, hk] at ht
  stops hc := by
    obtain ⟨top, rest, hs, ht⟩ := h
    unfold TopOk at ht
    rw [hc] at ht
    obtain ⟨hflag, b, hb⟩ := ht
    refine ⟨top, rest, b, hs.stack, hb, fun k => ⟨?_, fun r => ?_⟩⟩
    · simp [suspendTop, checkLoop, setFrame, hflag]
    · exact reenter_resumeTop hs hflag k r
  ends mem now hend := by
    obtain ⟨top, rest, hs, ht⟩ := h
    unfold Machine.next at hend
    unfold TopOk at ht
    cases hc : m.control with
    | inside =>
        rw [hc] at ht
        obtain ⟨hflag, b, hb⟩ := ht
        refine ⟨?_, hflag⟩
        rw [hc] at hend
        simp only [hs.runTop_eq hb] at hend
        cases rest with
        | nil => simp [hs.stack]
        | cons j js =>
            exfalso
            cases hact : (S.next b mem now).2 with
            | call g k => simp [hact, Machine.act, Action.ends] at hend
            | act a =>
                cases a <;> simp [hact, Machine.act, hs.leave_called, Action.map,
                  Action.ends] at hend
    | loop | check | returned | stuck => simp [hc, Action.ends] at hend
  running := by
    obtain ⟨top, rest, hs, ht⟩ := h
    unfold TopOk at ht
    constructor <;> intro hc <;> simp [hc] at ht

end Machine

/-! ### Environments -/

/-- The environment in which the calls are evaluated directly. -/
def State.inline (s : State (trampoline S)) : State (inlined S) :=
  s.view (Machine.evaluation S)

def Label.inline (l : Label (trampoline S)) : Label (inlined S) :=
  l.view (Machine.evaluation S)

/-- The machine of a user body is regular. -/
def Machine.Disciplined : (trampoline S).Frame → Prop
  | .user m => m.Regular
  | _ => True

/-- Every run of processes with call stacks is a run of the inlined processes, and
conversely: the transitions correspond, up to steps of the loop of `resume()` that
only change call stacks and are never endless. Equal are the clock, the memory that
bodies write, the tokens, and the trace with the results at each `co_await` and the
outcome of each process. In every body that runs, or goes on with any result of the
`co_await` it is suspended in, the loop of `resume()` is regular. -/
theorem trampoline_refines {C : State (inlined S) → Label (inlined S) → Prop}
    {s : State (trampoline S)} (h : Reachable (fun s l => C s.inline l.inline) s) :
    Reachable C s.inline ∧
    (∀ l s', Step s l s' → Step s.inline l.inline s'.inline ∨
      ∃ c, l = .exec c ∧ s'.inline = s.inline ∧
        s'.rank (Machine.evaluation S) c < s.rank (Machine.evaluation S) c) ∧
    (∀ l t, C s.inline l → Step s.inline l t →
      ∃ s', Transition.Runs Step (fun s l => C s.inline l.inline) s s' ∧ s'.inline = t) ∧
    s.Frames Machine.Disciplined := by
  have hok : s.Frames (Frame.Ok (Machine.evaluation S)) :=
    h.frames (Machine.evaluation S).closed
  refine ⟨Reachable.view (v := Machine.evaluation S) h, fun l s' hstep => hstep.view hok, ?_, ?_⟩
  · exact fun l t hC hstep => Step.of_view (v := Machine.evaluation S) hok h.fits hC hstep
  · have hreg : ∀ f, Frame.Ok (Machine.evaluation S) f → Machine.Disciplined f := by
      intro f hf
      cases f with
      | user m => exact Machine.Ok.regular hf
      | seq | raise => trivial
    intro c
    have hc := hok c
    cases hst : (s.coros c).status with
    | initial f => rw [hst] at hc; exact hreg f hc
    | running f => rw [hst] at hc; exact hreg f hc
    | suspended a k => rw [hst] at hc; exact fun r => hreg _ (hc r)
    | finished => trivial

/-- The states of a body of nested calls: the innermost one waits for a tick and
throws, and its callers let the exception pass. -/
inductive nested.Body where
  | calls (n : Nat)
  | fails
  | ended (r : Result Unit Unit)

def nested : SubProgram where
  User := Nat
  Body := nested.Body
  Memory := Unit
  Value := Unit
  Error := Unit
  start := .calls
  next b m _ := (m, match b with
    | .calls 0 => .act (.await (.timeout true 1 PriorityConsts.inherit none) fun _ => .fails)
    | .calls (n + 1) => .call (.calls n) .ended
    | .fails => .act (.throw (.user ()))
    | .ended (.ok _) => .act (.coReturn none)
    | .ended (.error e) => .act (.throw e))

namespace nested

/-- A process with one nested call has been bound. -/
def bound : State (trampoline nested) :=
  (State.init ()).bind (.call (1 : Nat) {})

/-- Its start token has been executed. -/
def started : State (trampoline nested) :=
  ({ bound.pop 0 with current := some 0 }.setStatus 0
    (.running (.user (Machine.start (S := nested) (1 : Nat))))).log (.started 0 0)

/-- The loop has resumed its frame. -/
def resumed : State (trampoline nested) :=
  started.setStatus 0 (.running (.user ((Machine.start (S := nested) (1 : Nat)).resumeTop none)))

/-- Its frame has called the subroutine. -/
def called : State (trampoline nested) :=
  resumed.setStatus 0 (.running (.user
    (((Machine.start (S := nested) (1 : Nat)).resumeTop none).call 0 (.calls 0) .ended)))

theorem called_reachable : Reachable (fun _ _ => True) called :=
  ((((Reachable.init ()).next trivial (.bind _ (.call (1 : Nat) {}) rfl (by decide))).next trivial
    (.step _ 0 started (State.isTop_singleton rfl) rfl (by decide))).next trivial
    (.exec _ 0 resumed rfl (by decide))).next trivial (.exec _ 0 called rfl (by decide))

end nested

theorem trampoline_refines_nested :
    Reachable (fun _ _ => True) nested.called.inline ∧
      (((Machine.start (S := nested) (1 : Nat)).resumeTop none).call 0 (.calls 0) .ended).Regular :=
  have h := trampoline_refines (C := fun _ _ => True) nested.called_reachable
  ⟨h.1, h.2.2.2 0⟩

end Cxxdes
