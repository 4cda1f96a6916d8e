-- SUMMARY: Coroutine handles, coroutine_data with their reference counts, and what creates, runs and destroys a coroutine frame.
import Cxxdes.Core.Token
import Cxxdes.Logic.RefCount
import Cxxdes.Logic.Transition

/-!
# Lifetimes

The objects behind a process: the handles that name it, its `coroutine_data`, and its
coroutine frame, whose promise holds a reference to the data. What a body computes is left
out; a resumed body awaits something, ends, or calls the functions of the library.

References to a `coroutine_data` are held by handles, promises, the tokens of the queue,
`coroutines_`, `current_coroutine_`, the completion tokens of other processes, the `parent_`
of its children, the events that it waits for and the handlers of its compositions. A token
that an event or a handler holds is put into the queue when the event is woken or the handler
fires, and goes with the event or the handler if that never happens; `reset()` knows nothing
about it. References that never resume the process (a token with a handler, a
`coroutine_data_ptr` of a body's own) are collected in `kept`.
-/

namespace Cxxdes.Lifetime

open RefCount

/-- What destroyed a coroutine frame: its end, `reset()` or `destroy_if_not_started_`. -/
inductive Cause where
  | ended
  | reset
  | notStarted
deriving DecidableEq

/-- Undefined behaviour. -/
inductive Fault where
  /-- `destroy()` of a frame that does not exist any more. -/
  | destroyedTwice
  /-- `assert(!complete_)` in `coroutine_data::resume`. -/
  | resumeComplete
  /-- `resume()` of a frame that does not exist any more. -/
  | resumeDestroyed
deriving DecidableEq

/-- A `coroutine_data` and its frame. `waiters` are the processes named by the completion
tokens; `destroyedBy` is history. -/
structure Data where
  started : Bool := false
  complete : Bool := false
  parent : Option CoroId := none
  waiters : List CoroId := []
  frame : Bool := false
  destroyedBy : List Cause := []
deriving DecidableEq

/-- The references that a `coroutine_data` holds. -/
def Data.owned (d : Data) : List CoroId := d.parent.toList ++ d.waiters

/-- The processes and the environment. `queue` and `coroutines` are the fields `tokens_`
and `coroutines_`; `parked` are the tokens that events and handlers hold. -/
structure Table where
  data : CoroId → Data
  nextData : CoroId
  env : Bool
  coroutines : List CoroId
  queue : List CoroId
  current : Option CoroId
  kept : List CoroId
  parked : List CoroId

/-- `handles` are the handle objects that exist, with what they point to. -/
structure Store extends Table where
  counts : Counts CoroId
  handles : HandleId → Option (Option CoroId)
  nextHandle : HandleId

namespace Table

/-- The completion tokens that name `c`, of the processes that may still schedule them. -/
def awaiting (t : Table) (c : CoroId) : Nat :=
  internal (Finset.range t.nextData) (fun d => (t.data d).waiters) (fun d => !(t.data d).complete) c

/-- The tokens of `c`, without those that events and handlers hold. -/
def tokens (t : Table) (c : CoroId) : Nat :=
  t.queue.count c + t.current.toList.count c + t.awaiting c

end Table

namespace Store

/-- An environment, and no process. -/
def init : Store where
  data := fun _ => {}
  nextData := 0
  env := true
  coroutines := []
  queue := []
  current := none
  kept := []
  parked := []
  counts := ⟨fun _ => 0, fun _ => false⟩
  handles := fun _ => none
  nextHandle := 0

variable (s : Store)

def setData (c : CoroId) (d : Data) : Store :=
  { s with data := Function.update s.data c d }

def setHandle (h : HandleId) (p : Option (Option CoroId)) : Store :=
  { s with handles := Function.update s.handles h p }

/-- The `coro_data_` of a handle. -/
def pointer (h : HandleId) : Option CoroId := (s.handles h).join

def owned (c : CoroId) : List CoroId := (s.data c).owned

theorem setData_data (c : CoroId) (d : Data) (x : CoroId) :
    (s.setData c d).data x = if x = c then d else s.data x := Function.update_apply ..

theorem setData_owned (c : CoroId) (d : Data) (x : CoroId) :
    (s.setData c d).owned x = if x = c then d.owned else s.owned x := by
  unfold owned
  rw [setData_data]
  split <;> rfl

theorem setHandle_handles (h : HandleId) (p : Option (Option CoroId)) (x : HandleId) :
    (s.setHandle h p).handles x = if x = h then p else s.handles x := Function.update_apply ..

theorem setHandle_pointer (h : HandleId) (p : Option (Option CoroId)) (x : HandleId) :
    (s.setHandle h p).pointer x = if x = h then p.join else s.pointer x := by
  unfold pointer
  rw [setHandle_handles]
  split <;> rfl

theorem ok_of_map {α β : Type} {f : α → β} {x : Except Fault α} {b : β}
    (h : x.map f = .ok b) : ∃ a, x = .ok a ∧ f a = b := by
  cases x with
  | ok a => exact ⟨a, rfl, Except.ok.inj h⟩
  | error e => cases h

/-! ### References -/

def ref (c : CoroId) : Store := { s with counts := s.counts.ref c }

/-- Construction of a `memory::ptr` for each of `cs`. -/
def refAll (cs : List CoroId) : Store := { s with counts := cs.foldl Counts.ref s.counts }

/-- `unref()` of each of `cs`, with the destructors that follow. -/
def unref (cs : List CoroId) : Store :=
  { s with counts := s.counts.drop s.owned (∑ c ∈ Finset.range s.nextData, s.counts.count c) cs }

/-! ### Frames -/

/-- `destroy()` of the coroutine frame of `c`, and with it of the promise. -/
def destroyFrame (c : CoroId) (cause : Cause) : Except Fault Store :=
  if (s.data c).frame then
    .ok ((s.setData c { s.data c with
      frame := false, destroyedBy := (s.data c).destroyedBy ++ [cause] }).unref [c])
  else .error .destroyedTwice

theorem destroyFrame_of_frame {c : CoroId} (cause : Cause) (hf : (s.data c).frame = true) :
    s.destroyFrame c cause = .ok ((s.setData c { s.data c with
      frame := false, destroyedBy := (s.data c).destroyedBy ++ [cause] }).unref [c]) := if_pos hf

theorem destroyFrame_ok {s s' : Store} {c : CoroId} {cause : Cause}
    (h : s.destroyFrame c cause = .ok s') : (s.data c).frame = true ∧
      s' = (s.setData c { s.data c with
        frame := false, destroyedBy := (s.data c).destroyedBy ++ [cause] }).unref [c] := by
  unfold destroyFrame at h
  split at h
  · next hf =>
      cases h
      exact ⟨hf, rfl⟩
  · cases h

/-- `coroutine_data::destroy_if_not_started_`. -/
def destroyIfNotStarted (c : CoroId) : Except Fault Store :=
  if s.counts.count c = 2 ∧ (s.data c).started = false then s.destroyFrame c .notStarted
  else .ok s

/-- `coroutine_data::destroy`. -/
def destroy (c : CoroId) : Except Fault Store :=
  (s.setData c { s.data c with complete := true }).destroyFrame c .reset

theorem destroy_ok {s s' : Store} {c : CoroId} (h : s.destroy c = .ok s') :
    (s.data c).frame = true ∧ s' = (s.setData c { s.data c with
      complete := true, frame := false,
      destroyedBy := (s.data c).destroyedBy ++ [.reset] }).unref [c] := by
  obtain ⟨hf, rfl⟩ := destroyFrame_ok h
  have hdata : (s.setData c { s.data c with complete := true }).data c =
    { s.data c with complete := true } := Function.update_self ..
  rw [hdata] at hf ⊢
  refine ⟨hf, ?_⟩
  simp only [setData, Function.update_idem]

/-! ### Handles -/

/-- A call of a coroutine function: the promise creates the `coroutine_data`, and
`get_return_object` the handle. -/
def newCoroutine : Store :=
  { s with
    counts := (s.counts.create s.nextData).ref s.nextData
    data := Function.update s.data s.nextData { frame := true }
    nextData := s.nextData + 1
    handles := Function.update s.handles s.nextHandle (some (some s.nextData))
    nextHandle := s.nextHandle + 1 }

/-- A handle that points to nothing. -/
def newHandle : Store :=
  { s with
    handles := Function.update s.handles s.nextHandle (some none)
    nextHandle := s.nextHandle + 1 }

/-- `ptr::operator=(ptr const &)` on the `coro_data_` of a handle. -/
def assign (h : HandleId) (p : Option CoroId) : Store :=
  if s.pointer h = p then s
  else
    (((s.setHandle h (some none)).unref (s.pointer h).toList).setHandle h (some p)).refAll p.toList

/-- `coroutine::operator=(coroutine const &)`. -/
def copyAssign (h other : HandleId) : Store :=
  if h = other then s else s.assign h (s.pointer other)

/-- `coroutine(coroutine const &)`. -/
def copyConstruct (other : HandleId) : Store := s.newHandle.copyAssign s.nextHandle other

/-- `coroutine::operator=(coroutine &&)`, which swaps. -/
def moveAssign (h other : HandleId) : Store :=
  if h = other then s
  else (s.setHandle h (some (s.pointer other))).setHandle other (some (s.pointer h))

/-- `coroutine(coroutine &&)`. -/
def moveConstruct (other : HandleId) : Store := s.newHandle.moveAssign s.nextHandle other

/-- `~coroutine()`. -/
def destroyHandle (h : HandleId) : Except Fault Store :=
  match s.pointer h with
  | none => .ok (s.setHandle h none)
  | some c => (s.destroyIfNotStarted c).map fun s => (s.setHandle h none).unref [c]

/-! ### Processes -/

/-- `coroutine_data::bind_`: the parent, the start token and `manage_()`. -/
def bind_ (c : CoroId) : Store :=
  if (s.data c).started then s
  else
    { s.setData c { s.data c with started := true, parent := s.current } with
      queue := s.queue ++ [c]
      coroutines := c :: s.coroutines }.refAll (s.current.toList ++ [c, c])

theorem bind_current (c : CoroId) : (s.bind_ c).current = s.current := by
  unfold bind_
  split <;> rfl

theorem bind_pointer (c : CoroId) (h : HandleId) : (s.bind_ c).pointer h = s.pointer h := by
  unfold bind_
  split <;> rfl

theorem bind_started (c : CoroId) : ((s.bind_ c).data c).started = true := by
  unfold bind_
  split
  · next hs => exact hs
  · have hself : Function.update s.data c
      { s.data c with started := true, parent := s.current } c =
        { s.data c with started := true, parent := s.current } := Function.update_self ..
    exact congrArg Data.started hself

/-- `step()` with the token of `c` on top, up to the resumption of the body. -/
def step (c : CoroId) : Except Fault Store :=
  if (s.data c).complete then .error .resumeComplete
  else if (s.data c).frame = false then .error .resumeDestroyed
  else .ok (({ s with queue := s.queue.erase c, current := some c }).ref c)

/-- Control goes back to `step()`, which drops `current_coroutine_` and the token. -/
def leave (c : CoroId) : Store := ({ s with current := none }).unref [c, c]

/-- The body of `c` awaits a timeout. -/
def suspend (c : CoroId) : Store := (({ s with queue := s.queue ++ [c] }).ref c).leave c

/-- A token of `c` is given to an event, or is the output token of a composition's handler. -/
def park (c : CoroId) : Store := ({ s with parked := c :: s.parked }).ref c

/-- An event is woken or a handler fires, and schedules its token. -/
def wake (c : CoroId) : Store :=
  { s with parked := s.parked.erase c, queue := s.queue ++ [c] }

/-- An event or a handler is destroyed together with its token. -/
def forget (c : CoroId) : Store := ({ s with parked := s.parked.erase c }).unref [c]

/-- The body of `c` awaits process `p`. -/
def await (c p : CoroId) : Store :=
  let s := s.bind_ p
  if (s.data p).complete then s
  else ((s.setData p { s.data p with waiters := (s.data p).waiters ++ [c] }).ref c).leave c

/-- The body of `c` ends: `do_return()`, and then the frame is destroyed. -/
def finish (c : CoroId) : Except Fault Store :=
  let s := { s.setData c { s.data c with waiters := [], complete := true } with
    queue := s.queue ++ (s.data c).waiters }
  let s := ({ s with coroutines := s.coroutines.erase c }).unref [c]
  (s.destroyFrame c .ended).map fun s => s.leave c

/-- What `finish` does when the frame exists. -/
theorem finish_ok {c : CoroId} (hf : (s.data c).frame = true) :
    ∃ s', s.finish c = .ok s' ∧ s'.handles = s.handles ∧ s'.nextHandle = s.nextHandle ∧
      s'.toTable = { s.toTable with
        data := Function.update s.data c { s.data c with
          waiters := [], complete := true, frame := false,
          destroyedBy := (s.data c).destroyedBy ++ [.ended] }
        queue := s.queue ++ (s.data c).waiters
        coroutines := s.coroutines.erase c
        current := none } := by
  have hdata : (s.setData c { s.data c with waiters := [], complete := true }).data c =
    { s.data c with waiters := [], complete := true } := Function.update_self ..
  unfold finish
  dsimp only
  rw [destroyFrame_of_frame]
  · refine ⟨_, rfl, rfl, rfl, ?_⟩
    dsimp only [leave, unref, setData] at hdata ⊢
    rw [hdata, Function.update_idem]
  · exact (congrArg Data.frame hdata).trans hf

/-! ### The environment -/

/-- The loop of `reset()` over the processes. -/
def destroyAll : List CoroId → Store → Except Fault Store
  | [], s => .ok s
  | c :: cs, s =>
    if (s.data c).complete then destroyAll cs s
    else
      match s.destroy c with
      | .ok s => destroyAll cs s
      | .error e => .error e

/-- `environment::reset`. The local copy of `coroutines_` is dropped at the end. -/
def reset : Except Fault Store :=
  (destroyAll s.coroutines { s with coroutines := [] }).map fun s' =>
    (({ s' with queue := [] }).unref s'.queue).unref s.coroutines

end Store

/-! ### Programs -/

/-- The operations of a program. `suspend`, `wait`, `park`, `await`, `finish` and `keep` are
those of the body that runs: it awaits a timeout, awaits an event or a composition, leaves a
token with a handler although an `await_suspend` after it throws, awaits a process, ends, and
leaves a reference somewhere. -/
inductive Op where
  | create
  | copyConstruct (other : HandleId)
  | copyAssign (h other : HandleId)
  | moveConstruct (other : HandleId)
  | moveAssign (h other : HandleId)
  | destroy (h : HandleId)
  | bind (h : HandleId)
  | step (c : CoroId)
  | suspend
  | wait
  | park
  | wake (c : CoroId)
  | forget (c : CoroId)
  | await (h : HandleId)
  | finish
  | keep
  | unkeep (c : CoroId)
  | reset
  | destroyEnv

/-- A handle object exists. -/
def Store.Has (s : Store) (h : HandleId) : Prop := (s.handles h).isSome = true

/-- What a C++ program may do: it names handles that exist and processes through handles
that point to one, and calls the functions of an environment that exists. -/
def Store.Allowed (s : Store) : Op → Prop
  | .create => True
  | .copyConstruct other | .moveConstruct other => s.Has other
  | .copyAssign h other | .moveAssign h other => s.Has h ∧ s.Has other
  | .destroy h => s.Has h
  | .bind h => s.env = true ∧ (s.pointer h).isSome = true
  | .step c => s.env = true ∧ s.current = none ∧ c ∈ s.queue
  | .suspend | .wait | .park | .finish | .keep => s.current.isSome = true
  | .wake c => s.env = true ∧ c ∈ s.parked
  | .forget c => c ∈ s.parked
  | .await h => s.current.isSome = true ∧ (s.pointer h).isSome = true
  | .unkeep c => c ∈ s.kept
  | .reset | .destroyEnv => s.env = true ∧ s.current = none

/-- Every call of `f` names a process. -/
def Store.withSome (s : Store) (p : Option CoroId) (f : CoroId → Except Fault Store) :
    Except Fault Store :=
  match p with
  | some c => f c
  | none => .ok s

def Store.apply (s : Store) : Op → Except Fault Store
  | .create => .ok s.newCoroutine
  | .copyConstruct other => .ok (s.copyConstruct other)
  | .copyAssign h other => .ok (s.copyAssign h other)
  | .moveConstruct other => .ok (s.moveConstruct other)
  | .moveAssign h other => .ok (s.moveAssign h other)
  | .destroy h => s.destroyHandle h
  | .bind h => s.withSome (s.pointer h) fun c => .ok (s.bind_ c)
  | .step c => s.step c
  | .suspend => s.withSome s.current fun c => .ok (s.suspend c)
  | .wait => s.withSome s.current fun c => .ok ((s.park c).leave c)
  | .park => s.withSome s.current fun c => .ok (s.park c)
  | .wake c => .ok (s.wake c)
  | .forget c => .ok (s.forget c)
  | .await h => s.withSome s.current fun c => s.withSome (s.pointer h) fun p => .ok (s.await c p)
  | .finish => s.withSome s.current fun c => s.finish c
  | .keep => s.withSome s.current fun c => .ok (({ s with kept := c :: s.kept }).ref c)
  | .unkeep c => .ok (({ s with kept := s.kept.erase c }).unref [c])
  | .reset => s.reset
  | .destroyEnv => s.reset.map fun s => { s with env := false }

/-- The transitions of a program. -/
def Step (s : Store) (op : Op) (s' : Store) : Prop := s.Allowed op ∧ s.apply op = .ok s'

/-- An event is woken, or a handler fires, only for a process that is suspended and has no other
token: it has not been destroyed by `reset()`, has not ended, and is neither running nor about
to be resumed. -/
def Store.Proper (s : Store) : Op → Prop
  | .wake c => (s.data c).complete = false ∧ s.tokens c = 0
  | _ => True

/-- The process whose last handle is overwritten by an assignment although it has not been
started. -/
def Store.overwrites (s : Store) : Op → List CoroId
  | .copyAssign h other =>
    (s.pointer h).toList.filter fun c => decide (h ≠ other) && decide (s.pointer other ≠ some c) &&
      decide (s.counts.count c = 2) && !(s.data c).started
  | _ => []

instance (s : Store) : DecidablePred s.Allowed
  | .create => inferInstanceAs (Decidable True)
  | .copyConstruct _ | .moveConstruct _ => inferInstanceAs (Decidable (_ = true))
  | .copyAssign _ _ | .moveAssign _ _ => inferInstanceAs (Decidable (_ = true ∧ _ = true))
  | .destroy _ => inferInstanceAs (Decidable (_ = true))
  | .bind _ => inferInstanceAs (Decidable (_ ∧ _ = true))
  | .step _ => inferInstanceAs (Decidable (_ ∧ _ ∧ _ ∈ s.queue))
  | .suspend | .wait | .park | .finish | .keep => inferInstanceAs (Decidable (_ = true))
  | .wake c => inferInstanceAs (Decidable (_ ∧ c ∈ s.parked))
  | .forget c => inferInstanceAs (Decidable (c ∈ s.parked))
  | .await _ => inferInstanceAs (Decidable (_ = true ∧ _ = true))
  | .unkeep c => inferInstanceAs (Decidable (c ∈ s.kept))
  | .reset | .destroyEnv => inferInstanceAs (Decidable (_ ∧ s.current = none))

instance (s : Store) : DecidablePred s.Proper
  | .wake c => inferInstanceAs (Decidable ((s.data c).complete = false ∧ s.tokens c = 0))
  | .create | .copyConstruct _ | .copyAssign _ _ | .moveConstruct _ | .moveAssign _ _
  | .destroy _ | .bind _ | .step _ | .suspend | .wait | .park | .forget _ | .await _ | .finish
  | .keep | .unkeep _ | .reset | .destroyEnv => inferInstanceAs (Decidable True)

/-- The state after the operations, as far as they are allowed and proper, with what they
overwrite. -/
def Store.after (r : List CoroId × Store) : List Op → List CoroId × Store
  | [] => r
  | op :: ops =>
    if r.2.Allowed op ∧ r.2.Proper op then
      match r.2.apply op with
      | .ok s' => after (r.1 ++ r.2.overwrites op, s') ops
      | .error _ => r
    else r

end Cxxdes.Lifetime
