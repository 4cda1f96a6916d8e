-- SUMMARY: The environment with the objects around it, and the primitive updates every library function is made of.
import Cxxdes.Core.Program

/-!
# Environments

`State P` is an `environment` together with the objects its processes use:
tokens, composition handlers, `coroutine_data`, handle objects that are awaited
by reference, events, and the memory of the model. The fields `scheduled`,
`executed`, `pushed`, `legal` and `trace`, and `startToken` of a process, are history:
they are written but never read by the modelled functions.

Times are integers. `State.Fits` says that no sum of times has left `time_integral`; a
transition after which it fails has undefined behaviour (see `Environment.lean`).
-/

namespace Cxxdes

/-- `coroutine_data::env_`: null, the modelled environment, or another one. -/
inductive Binding where
  | unbound
  | here
  | elsewhere
deriving DecidableEq

/-- Where the coroutine of a process is. `suspended a k` is suspended in
`co_await a`, and `k` continues with the result. A finished coroutine has run to
its end or was destroyed, and `complete_` is set. -/
inductive Status (P : Program) where
  | initial (f : P.Frame)
  | running (f : P.Frame)
  | suspended (a : Awaitable P.User) (k : Result P.Value P.Error → P.Frame)
  | finished

/-- `coroutine_data_<T, Unique>`. `completionTokens` is `completion_tokens_`, or
the single `completion_token_` of a unique process. -/
structure CoroData (P : Program) where
  unique : Bool := false
  void : Bool := true
  latency : Int := 0
  priority : Int := PriorityConsts.inherit
  env : Binding := .unbound
  parent : Option CoroId := none
  status : Status P := .finished
  completionTokens : List TokenId := []
  returnValue : Option P.Value := none
  startToken : Option TokenId := none

/-- `coroutine_data::complete()`. -/
def CoroData.complete {P : Program} (d : CoroData P) : Bool :=
  match d.status with
  | .finished => true
  | _ => false

/-- `completion_token(token)`: a unique process keeps the last one only. -/
def CoroData.completionToken {P : Program} (d : CoroData P) (t : TokenId) : CoroData P :=
  { d with completionTokens := if d.unique then [t] else d.completionTokens ++ [t] }

/-- The process of a coroutine function that has been called. -/
def CoroData.called {P : Program} (f : P.Frame) (o : Options) : CoroData P :=
  { unique := o.unique, void := o.void, latency := o.latency, priority := o.priority,
    status := .initial f }

/-- The process once it is bound, with start token `t`. -/
def CoroData.started {P : Program} (d : CoroData P) (parent : Option CoroId) (priority : Int)
    (t : TokenId) : CoroData P :=
  { d with env := .here, parent := parent, priority := priority, startToken := some t }

/-- What happens to the processes of a run. -/
inductive Obs (V E : Type) where
  | bound (c : CoroId) (now : Int)
  | started (c : CoroId) (now : Int)
  | waiting (c target : CoroId) (tkn : TokenId) (latency now : Int)
  | resumed (c : CoroId) (tkn : TokenId) (now : Int)
  | result (c : CoroId) (target : Option CoroId) (r : Result V E) (now : Int)
  | returned (c : CoroId) (r : Result V E) (now : Int)
  | raised (e : Exn E) (now : Int)
deriving DecidableEq

/-- `movedFrom h`: the handle object `h` has been moved from, its `coro_data_` is null. `legal`: no
exception-only token has been pending since the queue last held at most one token. -/
structure State (P : Program) where
  now : Int
  tokens : TokenId → Token P.Error
  nextToken : TokenId
  queue : List TokenId
  handlers : HandlerId → Handler
  nextHandler : HandlerId
  coros : CoroId → CoroData P
  nextCoro : CoroId
  objects : HandleId → Handle × Option TokenId
  nextObject : HandleId
  movedFrom : HandleId → Bool
  events : EventId → List TokenId
  managed : List CoroId
  current : Option CoroId
  memory : P.Memory
  scheduled : List TokenId
  executed : List TokenId
  pushed : TokenId → Key
  legal : Bool
  trace : List (Obs P.Value P.Error)

namespace State

variable {P : Program}

/-- A new environment, before any coroutine has been called. No handle can name a
process that does not exist; such a process is `elsewhere`, so that nothing is
ever done with it. -/
def init (m : P.Memory) : State P where
  now := 0
  tokens := fun _ => ⟨0, 0, none, none, none⟩
  nextToken := 0
  queue := []
  handlers := fun _ => ⟨.allOf, 0, 0, none⟩
  nextHandler := 0
  coros := fun _ => { env := .elsewhere }
  nextCoro := 0
  objects := fun _ => (⟨0, 0, PriorityConsts.inherit⟩, none)
  nextObject := 0
  movedFrom := fun _ => false
  events := fun _ => []
  managed := []
  current := none
  memory := m
  scheduled := []
  executed := []
  pushed := fun _ => ⟨0, 0, false⟩
  legal := true
  trace := []

def log (s : State P) (o : Obs P.Value P.Error) : State P :=
  { s with trace := s.trace ++ [o] }

/-! ### Tokens -/

/-- `new token{...}`. The token is number `s.nextToken`. -/
def newToken (s : State P) (tkn : Token P.Error) : State P :=
  { s with
    tokens := Function.update s.tokens s.nextToken tkn
    nextToken := s.nextToken + 1 }

def setToken (s : State P) (t : TokenId) (tkn : Token P.Error) : State P :=
  { s with tokens := Function.update s.tokens t tkn }

/-- No sum of times has overflowed: each one is the time of a token. -/
def Fits (s : State P) : Prop :=
  ∀ t < s.nextToken, timeIntegral.Fits (s.tokens t).time

instance (s : State P) : Decidable s.Fits :=
  inferInstanceAs (Decidable (∀ t < s.nextToken, _))

/-- The heap of `tokens_` is in order: a heap of at most one element always is, and pushing and
popping by a legal comparator keep it. -/
def Heaped (s : State P) : Prop :=
  s.queue.length ≤ 1 ∨ s.legal = true

instance (s : State P) : Decidable s.Heaped :=
  inferInstanceAs (Decidable (_ ∨ _))

/-- `environment::schedule_token`. -/
def scheduleToken (s : State P) (t : TokenId) : State P :=
  { s with
    queue := s.queue ++ [t]
    scheduled := s.scheduled ++ [t]
    pushed := Function.update s.pushed t (s.tokens t).key
    legal := (decide (s.queue.length ≤ 1) || s.legal) && !(s.tokens t).hasPriority &&
      s.queue.all fun u => !(s.pushed u).hasPriority }

/-- `tkn->time += env->now(); env->schedule_token(tkn);` -/
def releaseToken (s : State P) (t : TokenId) : State P :=
  (s.setToken t { s.tokens t with time := (s.tokens t).time + s.now }).scheduleToken t

/-- The loops over the waiters of an event and over the completion tokens of a
process. -/
def releaseAll (s : State P) (ts : List TokenId) : State P :=
  ts.foldl releaseToken s

/-! ### Events -/

/-- `wait_awaitable::await_suspend`: the token is held by the event. -/
def newWaiter (s : State P) (evt : EventId) (tkn : Token P.Error) : State P :=
  { s.newToken tkn with
    events := Function.update s.events evt (s.events evt ++ [s.nextToken]) }

/-- `wake_awaitable::await_ready`. -/
def wake (s : State P) (evt : EventId) : State P :=
  { s.releaseAll (s.events evt) with events := Function.update s.events evt [] }

/-! ### Processes -/

def setCoro (s : State P) (c : CoroId) (d : CoroData P) : State P :=
  { s with coros := Function.update s.coros c d }

def setStatus (s : State P) (c : CoroId) (st : Status P) : State P :=
  s.setCoro c { s.coros c with status := st }

/-- A call of a coroutine function, up to `initial_suspend()`. The process is
number `s.nextCoro`. -/
def newCoro (s : State P) (f : P.Frame) (o : Options) : State P :=
  { s with
    coros := Function.update s.coros s.nextCoro (.called f o)
    nextCoro := s.nextCoro + 1 }

/-- The part of `coroutine_data::bind_` after the check of `env_`. -/
def startCoro (s : State P) (c : CoroId) (priority : Int) : State P :=
  let d := s.coros c
  let priority := resolvePriority d.priority priority
  let s' := s.setCoro c (d.started s.current priority s.nextToken)
  let s' := s'.newToken ⟨s.now + d.latency, priority, some c, none, none⟩
  let s' := s'.scheduleToken s.nextToken
  { s' with managed := c :: s.managed }.log (.bound c s.now)

/-- `coroutine_data::bind_`. -/
def bind_ (s : State P) (c : CoroId) (priority : Int) : Except (Exn P.Error) Unit × State P :=
  match (s.coros c).env with
  | .elsewhere =>
    (.error (.runtimeError
      "cannot bind an already bound coroutine to another environment."), s)
  | .here => (.ok (), s)
  | .unbound => (.ok (), s.startCoro c priority)

/-- The priority of a completion token. -/
def returnPriority (s : State P) (p : Handle) : Int :=
  resolvePriority p.retPriority (s.coros p.coro).priority

/-- The new completion token of `coroutine::await_suspend`. -/
def newCompletion (s : State P) (p : Handle) (coroData : Option CoroId) : State P :=
  (s.newToken ⟨p.retLatency, s.returnPriority p, coroData, none, none⟩).setCoro p.coro
    ((s.coros p.coro).completionToken s.nextToken)

/-- `coroutine::await_suspend` on a handle object whose completion token is `tkn`. -/
def suspendHandle (s : State P) (p : Handle) (tkn : Option TokenId)
    (coroData : Option CoroId) : Except (Exn P.Error) TokenId × State P :=
  match tkn with
  | some _ => (.error (.runtimeError "coroutine<> is already being awaited!"), s)
  | none => (.ok s.nextToken, s.newCompletion p coroData)

/-- Binding a handle without waiting for it, as `environment::bind` and
`async_awaitable::await_bind` do with their own copy of the handle: the process
gets a completion token that names no waiter. -/
def detach (s : State P) (p : Handle) (priority : Int) : Except (Exn P.Error) Unit × State P :=
  match s.bind_ p.coro priority with
  | (.error e, s) => (.error e, s)
  | (.ok _, s) =>
    if (s.coros p.coro).complete then (.ok (), s) else (.ok (), s.newCompletion p none)

/-- `coroutine::await_resume(no_return_value_tag)` with completion token `tkn`. -/
def checkToken (s : State P) (tkn : Option TokenId) : Except (Exn P.Error) Unit :=
  match tkn.bind fun t => (s.tokens t).eptr with
  | some e => .error e
  | none => .ok ()

/-- The value part of `coroutine::await_resume()`. -/
def returnValue (s : State P) (c : CoroId) : Result P.Value P.Error :=
  if (s.coros c).void then .ok .unit
  else match (s.coros c).returnValue with
    | some v => .ok (.val v)
    | none => .error (.runtimeError "no return value from the coroutine<T> [T != void]!")

/-! ### Compositions -/

/-- The output token and the handler `any_all_helper::base::await_suspend`
creates. The handler is number `s.nextHandler`. -/
def newHandler (s : State P) (c : Comp) (total : Nat) (coroData : Option CoroId) : State P :=
  { s.newToken ⟨c.latency, c.priority, coroData, none, none⟩ with
    handlers := Function.update s.handlers s.nextHandler
      ⟨c.cond, total, c.remaining, some s.nextToken⟩
    nextHandler := s.nextHandler + 1 }

/-- `a.await_token()->handler = handler`. -/
def install (s : State P) (t : TokenId) (h : HandlerId) : State P :=
  s.setToken t { s.tokens t with handler := some h }

def setHandler (s : State P) (h : HandlerId) (hd : Handler) : State P :=
  { s with handlers := Function.update s.handlers h hd }

/-! ### Handle objects -/

def setObject (s : State P) (h : HandleId) (tkn : Option TokenId) : State P :=
  { s with objects := Function.update s.objects h ((s.objects h).1, tkn) }

/-- What the move constructor of a `co_await` of the handle object `h` leaves of it. -/
def moveObject (s : State P) (h : HandleId) : State P :=
  { s.setObject h none with movedFrom := Function.update s.movedFrom h true }

/-- A handle object with a copy of `p`. It is number `s.nextObject`. -/
def newObject (s : State P) (p : Handle) : State P :=
  { s with
    objects := Function.update s.objects s.nextObject (p, none)
    nextObject := s.nextObject + 1 }

end State

end Cxxdes
