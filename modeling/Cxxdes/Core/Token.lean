-- SUMMARY: Tokens, composition handlers and process handles, with addresses as natural numbers.
import Cxxdes.Logic.MachineInt
import Mathlib.Algebra.Order.Ring.Int
import Mathlib.Logic.Function.Basic

/-!
# Tokens and handlers

The scheduler of the library never runs code directly: it pops a `token` and
looks at its fields to decide what to resume or to invoke. A C++ pointer to a
token, a handler, a `coroutine_data` or a handle object is modelled by the
number of the object in its table (see `State.lean`); the null pointer is
`none`. Object lifetimes are not modelled: a table keeps dead objects.
-/

namespace Cxxdes

abbrev TokenId := Nat
abbrev HandlerId := Nat
abbrev CoroId := Nat
abbrev HandleId := Nat
abbrev EventId := Nat

/-- `time_integral`, that is `std::intmax_t`. -/
def timeIntegral : MachineInt.IntType := ⟨true, 64, by decide⟩

namespace PriorityConsts

/-- Sentinel that asks an awaitable to inherit the caller's priority. -/
def inherit : Int := 2 ^ 63 - 1

end PriorityConsts

/-- What an awaitable does with the priority it is bound with. -/
def resolvePriority (own inherited : Int) : Int :=
  if own = PriorityConsts.inherit then inherited else own

/-- An `std::exception_ptr` that is not null: an exception of the model, or one
of the `std::runtime_error`s the library throws itself. -/
inductive Exn (E : Type) where
  | user (e : E)
  | runtimeError (what : String)
deriving DecidableEq

/-- `struct token`. The time is the exact sum; see `State.Fits` for overflow. -/
structure Token (E : Type) where
  time : Int
  priority : Int
  coroData : Option CoroId
  handler : Option HandlerId := none
  eptr : Option (Exn E) := none

/-- `token_comp::has_priority`: a token nothing but `step()` can process. -/
def Token.hasPriority {E : Type} (tkn : Token E) : Bool :=
  tkn.coroData.isNone && tkn.handler.isNone && tkn.eptr.isSome

/-- `token_comp::operator()`: whether `a` is served after `b`. -/
def Token.comp {E : Type} (a b : Token E) : Bool :=
  b.hasPriority || decide (b.time < a.time) ||
    (decide (a.time = b.time) && decide (b.priority < a.priority))

/-- The part of a token that `token_comp` reads. -/
structure Key where
  time : Int
  priority : Int
  hasPriority : Bool
deriving DecidableEq

def Token.key {E : Type} (tkn : Token E) : Key :=
  ⟨tkn.time, tkn.priority, tkn.hasPriority⟩

/-- `any_of_condition` and `all_of_condition`. -/
inductive Condition where
  | anyOf
  | allOf
deriving DecidableEq

/-- `Condition::operator()`. -/
def Condition.holds : Condition → Nat → Nat → Bool
  | .anyOf, total, remaining => decide (remaining < total)
  | .allOf, _, remaining => decide (remaining = 0)

/-- `any_all_helper::custom_handler`. -/
structure Handler where
  cond : Condition
  total : Nat
  remaining : Nat
  completionTkn : Option TokenId

/-- `--remaining` on a 64-bit `std::size_t`. -/
def sizeDecr (n : Nat) : Nat :=
  if n = 0 then 2 ^ 64 - 1 else n - 1

/-- The fields of a `coroutine<T>` handle that a copy keeps: the process and
`return_`. The completion token of a handle object is kept next to it. -/
structure Handle where
  coro : CoroId
  retLatency : Int := 0
  retPriority : Int := PriorityConsts.inherit
deriving DecidableEq

/-- The settings of a coroutine function call `f(...)`: those of the coroutine
type (`Unique`, `void` return) and those set by `.latency(...)`,
`.priority(...)`, `.return_latency(...)` and `.return_priority(...)`. -/
structure Options where
  unique : Bool := false
  void : Bool := true
  latency : Int := 0
  priority : Int := PriorityConsts.inherit
  retLatency : Int := 0
  retPriority : Int := PriorityConsts.inherit
deriving DecidableEq

/-- The value of a `co_await` expression: nothing, a value returned by a
process, or the handle returned by `async`. -/
inductive Val (V : Type) where
  | unit
  | val (v : V)
  | handle (p : Handle)
deriving DecidableEq

/-- The value that a `co_return` leaves. -/
def Val.ofReturn {V : Type} : Option V → Val V
  | some v => .val v
  | none => .unit

/-- How a `co_await` expression ends. -/
abbrev Result (V E : Type) := Except (Exn E) (Val V)

end Cxxdes
