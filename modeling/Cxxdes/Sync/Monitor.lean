-- SUMMARY: Synchronization objects with one event, the processes that use them, and semaphore, queue and mutex.
import Cxxdes.Await.Outside
import Cxxdes.Subroutine.Trampoline

/-!
# Synchronization objects

The operations of `semaphore`, `queue` and `mutex` are subroutines of one shape:
wait on the event of the object until a guard holds, change the object, and wake the
event. `Monitor` is that shape, `Client` is a model whose bodies use one such object:
they see its data, but change it only through its operations, and they do not
mention its event, which is private.
-/

namespace Cxxdes

/-- The data and the operations of a synchronization object. -/
structure Monitor (V E : Type) where
  Data : Type
  Op : Type
  /-- the guard of the loop that waits on the event -/
  can : Op → Data → Bool
  /-- what the operation does after the loop, up to `event_.wake()` -/
  perform : Op → Data → Except (Exn E) (Option V) × Data
  wakes : Op → Bool

/-- An operation that does not wake the event enables no operation. -/
def Monitor.Settles {V E : Type} (M : Monitor V E) : Prop :=
  ∀ op d, M.can op d = true →
    (M.wakes op = false ∨ ∃ e, (M.perform op d).1 = .error e) →
    ∀ op', M.can op' (M.perform op d).2 = true → M.can op' d = true

/-! ### Clients -/

/-- An action of a body that may also use the object. -/
inductive ClientAction (U B V E Op : Type) where
  | act (a : Action U B V E)
  | call (g : B) (k : Result V E → B)
  | operate (op : Op) (k : Result V E → B)

def ClientAction.Avoids {U B V E Op : Type} (e : EventId) : ClientAction U B V E Op → Prop
  | .act a => a.Avoids e
  | _ => True

/-- A model whose bodies use the object `M`. -/
structure Client {V E : Type} (M : Monitor V E) where
  User : Type
  Body : Type
  Memory : Type
  event : EventId
  start : User → Body
  next : Body → M.Data → Memory → Int → Memory × ClientAction User Body V E M.Op
  keepsOut : ∀ b d m now, (next b d m now).2.Avoids event

variable {V E : Type} {M : Monitor V E}

/-- The bodies of a client, and those of the operations: `enter op` is at the test of the
guard, `leave v` comes back from `event_.wake()`. -/
inductive Client.Stage (C : Client M) where
  | user (b : C.Body)
  | enter (op : M.Op)
  | leave (v : Option V)

/-- The body of the operation `op` at the test of its guard. -/
def Client.enter (C : Client M) (op : M.Op) (d : M.Data) :
    M.Data × SubAction C.User C.Stage V E :=
  if M.can op d then
    ((M.perform op d).2, .act (match (M.perform op d).1 with
      | .error e => .throw e
      | .ok v => if M.wakes op then .await (.wake C.event) fun _ => .leave v else .coReturn v))
  else (d, .act (.await (.wait C.event 0 PriorityConsts.inherit none) fun _ => .enter op))

def Client.next' (C : Client M) : C.Stage → M.Data × C.Memory → Int →
    (M.Data × C.Memory) × SubAction C.User C.Stage V E
  | .user b, m, now =>
    ((m.1, (C.next b m.1 m.2 now).1), match (C.next b m.1 m.2 now).2 with
      | .act a => .act (a.map .user)
      | .call g k => .call (.user g) fun r => .user (k r)
      | .operate op k => .call (.enter op) fun r => .user (k r))
  | .enter op, m, _ => (((C.enter op m.1).1, m.2), (C.enter op m.1).2)
  | .leave v, m, _ => (m, .act (.coReturn v))

/-- The coroutine functions and subroutines of the client. -/
abbrev Client.sub (C : Client M) : SubProgram where
  User := C.User
  Body := C.Stage
  Memory := M.Data × C.Memory
  Value := V
  Error := E
  start u := .user (C.start u)
  next := C.next'

/-! ### semaphore -/

/-- `semaphore<U>` for a `U` of `w` bits. -/
structure Semaphore (w : Nat) where
  value : BitVec w
  max : BitVec w

inductive Semaphore.Op where
  | up
  | down

def semaphore (V E : Type) (w : Nat) : Monitor V E where
  Data := Semaphore w
  Op := Semaphore.Op
  can
    | .up, d => d.value < d.max
    | .down, d => 0 < d.value
  perform
    | .up, d => (.ok none, { d with value := d.value + 1 })
    | .down, d => (.ok none, { d with value := d.value - 1 })
  wakes _ := true

/-! ### queue -/

structure Queue (V : Type) where
  maxSize : Nat
  q : List V

namespace Queue

variable (d : Queue V)

def size : Nat := d.q.length

def bounded : Bool := 0 < d.maxSize

def canPut : Bool := !d.bounded || d.size < d.maxSize

def canPop : Bool := 0 < d.size

end Queue

inductive Queue.Op (V : Type) where
  | put (v : V)
  | pop

/-- `queue<T>`. `pop` moves the front out and removes it before it wakes the event. -/
def queue (V E : Type) : Monitor V E where
  Data := Queue V
  Op := Queue.Op V
  can
    | .put _, d => d.canPut
    | .pop, d => d.canPop
  perform
    | .put v, d => (.ok none, { d with q := d.q ++ [v] })
    | .pop, d => (.ok d.q.head?, { d with q := d.q.tail })
  wakes _ := true

/-! ### mutex -/

/-- A `mutex` with the `mutex::handle` objects that have been made for it. -/
structure Mutex where
  owned : Bool
  /-- `x_` of the handle object refers to this mutex -/
  valid : Nat → Bool
  nextHandle : Nat

/-- The operations on a mutex and on the handle objects `h`. -/
inductive Mutex.Op where
  | acquire
  | release (h : Nat)
  /-- the move constructor, from `h` -/
  | move (h : Nat)
  /-- the move assignment `h = std::move(h')` -/
  | assign (h h' : Nat)
  | destroy (h : Nat)

namespace Mutex

/-- A new handle object. -/
def newHandle (d : Mutex) (valid : Bool) : Mutex :=
  { d with valid := Function.update d.valid d.nextHandle valid, nextHandle := d.nextHandle + 1 }

/-- `std::swap(x_, other.x_)` -/
def swap (d : Mutex) (h h' : Nat) : Mutex :=
  { d with valid := Function.update (Function.update d.valid h (d.valid h')) h' (d.valid h) }

end Mutex

/-- `mutex`, where `handle h` is the value that stands for the handle object `h`. -/
def mutex (V E : Type) (handle : Nat → V) : Monitor V E where
  Data := Mutex
  Op := Mutex.Op
  can
    | .acquire, d => !d.owned
    | _, _ => true
  perform
    | .acquire, d => (.ok (some (handle d.nextHandle)), { d.newHandle true with owned := true })
    | .release h, d =>
      if d.valid h then
        (.ok none, { d with valid := Function.update d.valid h false, owned := false })
      else (.error (.runtimeError "called release() on invalid mutex handle"), d)
    | .move h, d =>
      (.ok (some (handle d.nextHandle)), (d.newHandle false).swap d.nextHandle h)
    | .assign h h', d => (.ok none, d.swap h h')
    | .destroy h, d => (.ok none, { d with valid := Function.update d.valid h false })
  wakes
    | .release _ => true
    | _ => false

end Cxxdes
