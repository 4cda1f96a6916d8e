-- SUMMARY: Subroutines: the call stack and the loop of coroutine_data::resume, and the direct evaluation of nested calls.
import Cxxdes.Core.Program
import Mathlib.Logic.Function.Basic

/-!
# Subroutines

A subroutine runs inside the process that awaits it. The library keeps the frames
of a process on `call_stack_` and runs them from the loop of `resume()`, which goes
on as long as a call or a return has set `should_continue_`. `trampoline S` is the
program of these machines. `inlined S` evaluates nested calls directly: it runs the
body of the innermost call and goes on in its caller when it ends.
-/

namespace Cxxdes

/-- An action of a body that may `co_await` a subroutine, whose body starts in `g`. -/
inductive SubAction (U B V E : Type) where
  | act (a : Action U B V E)
  | call (g : B) (k : Result V E → B)

/-- The coroutine functions and subroutines of a model. -/
structure SubProgram where
  User : Type
  Body : Type
  Memory : Type
  Value : Type
  Error : Type
  start : User → Body
  next : Body → Memory → Int → Memory × SubAction User Body Value Error

/-! ### Direct evaluation -/

/-- The evaluation of a body, or of a call inside a body that goes on with `k`. -/
inductive Inlined (S : SubProgram) where
  | body (b : S.Body)
  | within (c : Inlined S) (k : Result S.Value S.Error → S.Body)

variable {S : SubProgram}

/-- A call is evaluated before its caller goes on, with its value or its exception. -/
def Inlined.next : Inlined S → S.Memory → Int →
    S.Memory × Action S.User (Inlined S) S.Value S.Error
  | .body b, m, now =>
    ((S.next b m now).1, match (S.next b m now).2 with
      | .act a => a.map .body
      | .call g k => .tau (.within (.body g) k))
  | .within c k, m, now =>
    ((c.next m now).1, match (c.next m now).2 with
      | .coReturn v => .tau (.body (k (.ok (.ofReturn v))))
      | .throw e => .tau (.body (k (.error e)))
      | a => a.map fun c => .within c k)

abbrev inlined (S : SubProgram) : Program where
  User := S.User
  Body := Inlined S
  Memory := S.Memory
  Value := S.Value
  Error := S.Error
  start u := .body (S.start u)
  next := Inlined.next

/-! ### The call stack -/

abbrev FrameId := Nat

/-- Where a coroutine of the call stack is suspended, or running. -/
inductive SubFrame (S : SubProgram) where
  /-- at `initial_suspend` -/
  | initial (b : S.Body)
  | running (b : S.Body)
  /-- in the `co_await` of the subroutine `callee` -/
  | calling (callee : FrameId) (k : Result S.Value S.Error → S.Body)
  /-- in the `co_await` of another awaitable -/
  | waiting (k : Result S.Value S.Error → S.Body)
  /-- at `final_suspend`, with `ret` or `eptr` of the promise -/
  | done (b : S.Body) (r : Result S.Value S.Error)

/-- Where control is in `coroutine_data::resume`. -/
inductive Control (S : SubProgram) where
  /-- at the beginning of the loop body; `r` is what the awaitable of a waiting frame
  returns from `await_resume`, when `step()` has executed its token -/
  | loop (r : Option (Result S.Value S.Error))
  /-- in `top.resume()` -/
  | inside
  /-- at `while (should_continue_)` -/
  | check
  /-- back in `step()` -/
  | returned
  /-- undefined: an empty stack, or a frame resumed that cannot go on -/
  | stuck

/-- The part of `coroutine_data` that runs the frames of a process. The back of
`call_stack_` is the head of the list. -/
structure Machine (S : SubProgram) where
  frames : FrameId → SubFrame S
  nextFrame : FrameId
  callStack : List FrameId
  shouldContinue : Bool
  control : Control S

namespace Machine

/-- The constructor of the promise of a process pushes its frame. -/
def start (u : S.User) : Machine S where
  frames := fun _ => .initial (S.start u)
  nextFrame := 1
  callStack := [0]
  shouldContinue := true
  control := .loop none

def setFrame (m : Machine S) (i : FrameId) (f : SubFrame S) : Machine S :=
  { m with frames := Function.update m.frames i f }

def fail (m : Machine S) : Machine S :=
  { m with control := .stuck }

/-- Frame `i` runs on in state `b`. -/
def enter (m : Machine S) (i : FrameId) (b : S.Body) : Machine S :=
  { m.setFrame i (.running b) with control := .inside }

/-- The loop body: `should_continue_ = false; call_stack_.back().resume();` -/
def resumeTop (m : Machine S) (r : Option (Result S.Value S.Error)) : Machine S :=
  let m := { m with shouldContinue := false }
  match m.callStack with
  | [] => m.fail
  | top :: _ =>
    match m.frames top with
    | .initial b => m.enter top b
    | .calling callee k =>
      match m.frames callee with
      | .done _ r => m.enter top (k r)
      | _ => m.fail
    | .waiting k =>
      match r with
      | some r => m.enter top (k r)
      | none => m.fail
    | _ => m.fail

/-- `while (should_continue_)` -/
def checkLoop (m : Machine S) : Machine S :=
  { m with control := if m.shouldContinue then .loop none else .returned }

/-- `co_await` of a subroutine by the frame `top`: its frame is pushed. -/
def call (m : Machine S) (top : FrameId) (g : S.Body)
    (k : Result S.Value S.Error → S.Body) : Machine S where
  frames := Function.update (Function.update m.frames top (.calling m.nextFrame k)) m.nextFrame
    (.initial g)
  nextFrame := m.nextFrame + 1
  callStack := m.nextFrame :: m.callStack
  shouldContinue := true
  control := .check

/-- The end of a subroutine: `final_suspend` pops its frame. -/
def finish (m : Machine S) (top : FrameId) (b : S.Body) (r : Result S.Value S.Error) :
    Machine S :=
  { m.setFrame top (.done b r) with
    callStack := m.callStack.tail, shouldContinue := true, control := .check }

/-- The frame `top` is suspended in the `co_await` of another awaitable, and control
goes back to the loop. -/
def suspendTop (m : Machine S) (top : FrameId) (k : Result S.Value S.Error → S.Body) :
    Machine S :=
  { m.setFrame top (.waiting k) with control := .check }

/-- `step()` calls `resume()` again, once the awaited token has been executed. -/
def reenter (m : Machine S) (r : Result S.Value S.Error) : Machine S :=
  match m.control with
  | .returned => { m with control := .loop (some r) }
  | _ => m.fail

/-- The frame `top` in state `b` ends with `r`. The first frame of the process is not
popped: its end is the action `a` of the process. -/
def leave (m : Machine S) (top : FrameId) (b : S.Body) (r : Result S.Value S.Error)
    (a : Action S.User (Machine S) S.Value S.Error) :
    Action S.User (Machine S) S.Value S.Error :=
  match m.callStack with
  | [_] => if m.shouldContinue then .tau m.fail else a
  | _ => .tau (m.finish top b r)

/-- What follows from an action of the top frame in state `b`. An await that does not
suspend goes on like one that does (`reenter_resumeTop`). -/
def act (m : Machine S) (top : FrameId) (b : S.Body) :
    SubAction S.User S.Body S.Value S.Error → Action S.User (Machine S) S.Value S.Error
  | .call g k => .tau (m.call top g k)
  | .act (.await a k) => .await a fun r => (m.suspendTop top k).checkLoop.reenter r
  | .act (.coReturn v) => m.leave top b (.ok (.ofReturn v)) (.coReturn v)
  | .act (.throw e) => m.leave top b (.error e) (.throw e)
  | .act a => a.map (m.enter top)

/-- What the top frame does while it runs. -/
def runTop (m : Machine S) (mem : S.Memory) (now : Int) :
    S.Memory × Action S.User (Machine S) S.Value S.Error :=
  match m.callStack with
  | [] => (mem, .tau m.fail)
  | top :: _ =>
    match m.frames top with
    | .running b => ((S.next b mem now).1, m.act top b (S.next b mem now).2)
    | _ => (mem, .tau m.fail)

/-- One step of the process, up to the next action that leaves the machine. -/
def next (m : Machine S) (mem : S.Memory) (now : Int) :
    S.Memory × Action S.User (Machine S) S.Value S.Error :=
  match m.control with
  | .loop r => (mem, .tau (m.resumeTop r))
  | .inside => m.runTop mem now
  | .check => (mem, .tau m.checkLoop)
  | .returned => (mem, .tau m.fail)
  | .stuck => (mem, .tau m)

end Machine

abbrev trampoline (S : SubProgram) : Program where
  User := S.User
  Body := Machine S
  Memory := S.Memory
  Value := S.Value
  Error := S.Error
  start := Machine.start
  next := Machine.next

end Cxxdes
