-- SUMMARY: Resources on top of a semaphore, with their handle objects, and the processes that use them.
import Cxxdes.Sync.Monitor

/-!
# Resources

`resource` keeps no data of its own: its subroutines `acquire()` and `release()` use the
semaphore `s_`, and a unit that has been acquired is known by a handle object only. A
model whose bodies use a resource is a client of that semaphore, with the handle objects
in its memory; the bodies of `acquire()` and `release()` are among its bodies.
-/

namespace Cxxdes

namespace Resource

/-- The `resource::handle` objects that have been made. Object `h` is the entry `h` of
`valid`: whether its `x_` refers to the resource. `dropped` is history: the valid handles
that have been destroyed. -/
structure Handles where
  valid : List Bool := []
  dropped : Nat := 0

namespace Handles

variable (d : Handles)

def isValid (h : Nat) : Bool := d.valid.getD h false

/-- A new handle object, number `d.valid.length`. -/
def construct (x : Bool) : Handles := { d with valid := d.valid ++ [x] }

/-- `x_ = nullptr` -/
def clear (h : Nat) : Handles := { d with valid := d.valid.set h false }

/-- `std::swap(x_, other.x_)`, which needs two handle objects. -/
def swap (h h' : Nat) : Handles :=
  match d.valid[h]?, d.valid[h']? with
  | some x, some x' => { d with valid := (d.valid.set h x').set h' x }
  | _, _ => d

/-- The move constructor. -/
def move (h : Nat) : Handles := (d.construct false).swap d.valid.length h

def destroy (h : Nat) : Handles where
  valid := d.valid.set h false
  dropped := d.dropped + if d.isValid h then 1 else 0

/-- The units that have been acquired and are not released. -/
def units : Nat := d.valid.count true + d.dropped

end Handles

/-- An action of a body that may also use the resource and its handle objects. -/
inductive Action (U B V E : Type) where
  | act (a : Cxxdes.Action U B V E)
  | call (g : B) (k : Result V E → B)
  | acquire (k : Result V E → B)
  | release (h : Nat) (k : Result V E → B)
  /-- the default constructor -/
  | construct (k : Nat → B)
  | move (h : Nat) (k : Nat → B)
  | assign (h h' : Nat) (b : B)
  | destroy (h : Nat) (b : B)

def Action.Avoids {U B V E : Type} (e : EventId) : Action U B V E → Prop
  | .act a => a.Avoids e
  | _ => True

/-- A model whose bodies use a resource. Its semaphore is private. -/
structure Holder (V E : Type) where
  User : Type
  Body : Type
  Memory : Type
  event : EventId
  /-- the value that stands for a handle object -/
  handle : Nat → V
  start : User → Body
  next : Body → Handles → Memory → Int → Memory × Action User Body V E
  keepsOut : ∀ b d m now, (next b d m now).2.Avoids event

variable {V E : Type}

/-- The bodies of a holder, and those of the subroutines: `acquired r` goes on with the
result of `s_.down()`, `released r` with that of `s_.up()`. -/
inductive Holder.Stage (R : Holder V E) where
  | user (b : R.Body)
  | acquire
  | acquired (r : Result V E)
  | release (h : Nat)
  | released (r : Result V E)

/-- What a body of the holder does. -/
def Holder.run (R : Holder V E) (b : R.Body) (d : Handles) (m : R.Memory) (now : Int) :
    (Handles × R.Memory) × ClientAction R.User R.Stage V E Semaphore.Op :=
  let m' := (R.next b d m now).1
  match (R.next b d m now).2 with
  | .act a => ((d, m'), .act (a.map .user))
  | .call g k => ((d, m'), .call (.user g) fun r => .user (k r))
  | .acquire k => ((d, m'), .call .acquire fun r => .user (k r))
  | .release h k => ((d, m'), .call (.release h) fun r => .user (k r))
  | .construct k => ((d.construct false, m'), .act (.tau (.user (k d.valid.length))))
  | .move h k => ((d.move h, m'), .act (.tau (.user (k d.valid.length))))
  | .assign h h' b => ((d.swap h h', m'), .act (.tau (.user b)))
  | .destroy h b => ((d.destroy h, m'), .act (.tau (.user b)))

theorem Holder.run_avoids (R : Holder V E) (b : R.Body) (d : Handles) (m : R.Memory)
    (now : Int) : (R.run b d m now).2.Avoids R.event := by
  have hout := R.keepsOut b d m now
  cases hact : (R.next b d m now).2 with
  | call | acquire | release | construct | move | assign | destroy =>
      simp only [Holder.run, hact]
      trivial
  | act a =>
      rw [hact] at hout
      simp only [Holder.run, hact]
      cases a <;> exact hout

/-- `resource::acquire` and `handle::release`. -/
def Holder.next' (R : Holder V E) :
    R.Stage → Handles × R.Memory → Int →
      (Handles × R.Memory) × ClientAction R.User R.Stage V E Semaphore.Op
  | .user b, m, now => R.run b m.1 m.2 now
  | .acquire, m, _ => (m, .operate .down .acquired)
  | .acquired (.ok _), m, _ =>
    ((m.1.construct true, m.2), .act (.coReturn (some (R.handle m.1.valid.length))))
  | .acquired (.error e), m, _ => (m, .act (.throw e))
  | .release h, m, _ =>
    if m.1.isValid h then ((m.1.clear h, m.2), .operate .up .released)
    else (m, .act (.throw (.runtimeError "called release() on invalid resource handle")))
  | .released (.ok _), m, _ => (m, .act (.coReturn none))
  | .released (.error e), m, _ => (m, .act (.throw e))

/-- The processes of the holder, as a client of the semaphore. -/
abbrev Holder.client (R : Holder V E) : Client (semaphore V E 64) where
  User := R.User
  Body := R.Stage
  Memory := Handles × R.Memory
  event := R.event
  start u := .user (R.start u)
  next b _ m now := R.next' b m now
  keepsOut b d m now := by
    cases b with
    | user b => exact R.run_avoids b m.1 m.2 now
    | acquire => trivial
    | acquired r => cases r <;> trivial
    | release h =>
        cases hv : m.1.isValid h <;>
          simp [Holder.next', hv, ClientAction.Avoids, Cxxdes.Action.Avoids]
    | released r => cases r <;> trivial

end Resource

end Cxxdes
