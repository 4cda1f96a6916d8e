-- SUMMARY: Awaitables, the actions of a coroutine body, and programs as functions from a body's state to its next action.
import Cxxdes.Core.Token

/-!
# Awaitables and programs

The bodies of coroutines are C++ code. A program gives, for every state of a
body, the memory it leaves and the next thing it asks of the library; the states
of a body are an arbitrary type, so loops, recursion and any local computation
are covered.
-/

namespace Cxxdes

/-- The fields of a composition: its settings, and what `await_ready()` and
`await_suspend()` store in it. The setters `priority()` and `return_latency()` return a
reference to the base class, so that the settings are made on a composition object that has a
name. A copy of what they return, as in `co_await any_of(..).priority(p)`, is `sliced`: it is an
object of the base class, which has no children to cast itself to. -/
structure Comp where
  cond : Condition
  latency : Int := 0
  priority : Int := PriorityConsts.inherit
  tkn : Option TokenId := none
  remaining : Nat := 0
  ready : List Bool := []
  sliced : Bool := false
deriving DecidableEq

/-- Awaitables over the calls `U` of coroutine functions.

* `timeout relative time` is `delay`/`timeout` (relative) or `until`/`instant`,
  `time` in ticks.
* `coroutine p tkn` is a handle held by value, `tkn` its completion token.
* `ref h` is a handle held by reference: a handle object other awaits can name.
* `call f o` and `sequential as o` are coroutines that have been called but are
  held by this awaitable only: they get their `coroutine_data` when it is bound. A
  `ref h` in `as` is held as in `sequential.by_reference`.
* `async a` starts `a`; an `a` that is not a coroutine is wrapped in one. -/
inductive Awaitable (U : Type) where
  | timeout (relative : Bool) (time priority : Int) (tkn : Option TokenId)
  | wait (evt : EventId) (latency priority : Int) (tkn : Option TokenId)
  | wake (evt : EventId)
  | coroutine (p : Handle) (tkn : Option TokenId)
  | ref (h : HandleId)
  | call (f : U) (o : Options)
  | sequential (as : List (Awaitable U)) (o : Options)
  | async (a : Awaitable U)
  | comp (c : Comp) (as : List (Awaitable U))

/-- The next thing a coroutine body does, with what it does afterwards.

* `tau` is a local computation, `create` calls a coroutine function and keeps
  the handle, `declare` puts a copy of a handle in an object that can be awaited
  by reference, `move` moves a handle out of such an object into the awaitable of a
  `co_await`, `bind` is `env.bind(p)`. -/
inductive Action (U φ V E : Type) where
  | tau (f : φ)
  | await (a : Awaitable U) (k : Result V E → φ)
  | create (f : U) (o : Options) (k : Handle → φ)
  | declare (p : Handle) (k : HandleId → φ)
  | move (h : HandleId) (k : Except (Result V E) Handle → φ)
  | bind (p : Handle) (k : Result V E → φ)
  | coReturn (v : Option V)
  | throw (e : Exn E)

def Action.map {U φ ψ V E : Type} (g : φ → ψ) : Action U φ V E → Action U ψ V E
  | .tau f => .tau (g f)
  | .await a k => .await a (fun r => g (k r))
  | .create f o k => .create f o (fun p => g (k p))
  | .declare p k => .declare p (fun h => g (k h))
  | .move h k => .move h (fun p => g (k p))
  | .bind p k => .bind p (fun r => g (k r))
  | .coReturn v => .coReturn v
  | .throw e => .throw e

/-- All states in which the body can go on after the action meet `p`. -/
def Action.All {U φ V E : Type} (p : φ → Prop) : Action U φ V E → Prop
  | .tau f => p f
  | .await _ k => ∀ r, p (k r)
  | .create _ _ k => ∀ h, p (k h)
  | .declare _ k => ∀ h, p (k h)
  | .move _ k => ∀ h, p (k h)
  | .bind _ k => ∀ r, p (k r)
  | .coReturn _ => True
  | .throw _ => True

/-- The coroutine functions of a model. `User` are their calls (a function with its
arguments), `start f` is the state of the body of call `f` at its beginning, and
`next b m now` is what a body in state `b` does to the memory `m` that the bodies
share, and its next action. -/
structure Program where
  User : Type
  Body : Type
  Memory : Type
  Value : Type
  Error : Type
  start : User → Body
  next : Body → Memory → Int → Memory × Action User Body Value Error

/-- A coroutine frame: a user body, the rest of a `seq_proc_*` body of
`sequential`, or such a body with an exception passing through it. -/
inductive Frame (U B E : Type) where
  | user (b : B)
  | seq (as : List (Awaitable U))
  | raise (e : Exn E)

abbrev Program.Frame (P : Program) : Type := Cxxdes.Frame P.User P.Body P.Error

/-- What a frame does next. A `seq_proc_*` body awaits its awaitables in turn, by
`co_await std::move(a)`: a handle that is held by reference is moved out of its object. -/
def Frame.next {P : Program} :
    P.Frame → P.Memory → Int → P.Memory × Action P.User P.Frame P.Value P.Error
  | .user b, m, now => ((P.next b m now).1, (P.next b m now).2.map .user)
  | .seq [], m, _ => (m, .coReturn none)
  | .seq (.ref h :: as), m, _ => (m, .move h fun
      | .ok p => .seq (.coroutine p none :: as)
      | .error (.ok _) => .seq as
      | .error (.error e) => .raise e)
  | .seq (a :: as), m, _ => (m, .await a fun
      | .ok _ => .seq as
      | .error e => .raise e)
  | .raise e, m, _ => (m, .throw e)

end Cxxdes
