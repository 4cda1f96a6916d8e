-- SUMMARY: Awaitables as objects that can be awaited again and by reference, with the priorities they store and those they were given.
import Cxxdes.Core.State

/-!
# Awaitable objects

An awaitable stores the priority it is bound with, in the same field that holds
`priority_consts::inherit` before. Here the awaitables are objects with an identity, so that a
composition can hold references to them and they can be bound again later. What a process does
is left open: it awaits any awaitable at any time, and the tokens are served in any order.

Next to each `priority_` there is the priority that the user has given, and next to each token
for what it was made. Both are history.
-/

namespace Cxxdes.Priority

abbrev ObjectId := Nat

/-- A field `priority_`. What was given explicitly is kept. -/
structure Prio where
  given : Int
  priority : Int
  kept : given ≠ PriorityConsts.inherit → priority = given

namespace Prio

/-- The field as the constructor or the setter leaves it. -/
def of (priority : Int) : Prio := ⟨priority, priority, fun _ => rfl⟩

/-- `if (priority_ == priority_consts::inherit) priority_ = priority;` -/
def bind (x : Prio) (priority : Int) : Prio where
  given := x.given
  priority := resolvePriority x.priority priority
  kept h := by
    rw [x.kept h]
    exact if_neg h

end Prio

/-- What an awaitable inherits from: the compositions around it, the nearest one first, with the
priorities given to them, and then the process that awaits it, with its priority. -/
structure Binder where
  enclosing : List Int
  process : Int

namespace Binder

/-- The priority of the nearest composition that has been given one, or of the process. -/
def priority (b : Binder) : Int :=
  (b.enclosing.find? (· ≠ PriorityConsts.inherit)).getD b.process

/-- The children of a composition. -/
def within (b : Binder) (given : Int) : Binder := { b with enclosing := given :: b.enclosing }

/-- `environment::bind`, which binds with priority 0. -/
def environment : Binder := ⟨[], 0⟩

end Binder

/-- What a start token or the token of a `delay`, `until` or `wait` is made for. -/
structure Origin where
  given : Int
  binder : Binder

/-- The priority that the token should have. -/
def Origin.priority (o : Origin) : Int := resolvePriority o.given o.binder.priority

/-- `delay` and `timeout` (`relative`), `until` and `instant`, and `event::wait`. -/
inductive Leaf where
  | timeout (relative : Bool) (time : Int)
  | wait (latency : Int)
deriving DecidableEq

/-- An awaitable, with the objects it consists of. `ref a` is an awaitable that is held by
reference, all else is held by value. `wake` stands for the awaitables that do without a priority,
`event::wake` and `lazy_timeout`.

The setters of a composition return a reference to its base class. What `co_await` or `by_value`
makes of that reference, as in `co_await any_of(x, y).priority(7)`, is a `slice`: a copy of the
base class, without the children. -/
inductive Awaitable where
  | leaf (o : ObjectId) (l : Leaf)
  | wake
  | coroutine (o : ObjectId)
  | async (o : ObjectId)
  | comp (o : ObjectId) (cond : Condition) (latency : Int) (as : List Awaitable)
  | slice
  | ref (a : Awaitable)

/-- A `coroutine<T>` object, and whether it has a completion token. -/
structure HandleObject where
  handle : Handle
  awaited : Bool := false

/-- `coroutine_data`. `failed` says that the process has ended with an exception, and `binder` what
bound it. -/
structure Coro where
  prio : Prio
  latency : Int
  env : Binding := .unbound
  complete : Bool := false
  failed : Bool := false
  waiting : Option Awaitable := none
  binder : Option Binder := none

/-- The tokens in the order in which they are made. The output tokens of compositions and the
completion tokens have no `origin`. -/
structure Token where
  time : Int
  priority : Int
  coroData : Option CoroId
  origin : Option Origin := none

/-- `undefined` says that behaviour has been undefined. -/
structure State where
  now : Int
  prios : ObjectId → Prio
  handles : ObjectId → HandleObject
  next : ObjectId
  coros : CoroId → Coro
  nextCoro : CoroId
  tokens : List Token
  undefined : Bool := false

/-! ### Copies -/

mutual
/-- The awaitable with other objects for those that it holds by value. -/
def Awaitable.rename (f : ObjectId → ObjectId) : Awaitable → Awaitable
  | .leaf o l => .leaf (f o) l
  | .wake => .wake
  | .coroutine o => .coroutine (f o)
  | .async o => .async (f o)
  | .comp o cond latency as => .comp (f o) cond latency (renameAll f as)
  | .slice => .slice
  | .ref a => .ref a

def Awaitable.renameAll (f : ObjectId → ObjectId) : List Awaitable → List Awaitable
  | [] => []
  | a :: as => a.rename f :: renameAll f as
end

mutual
/-- All its objects exist. -/
def Awaitable.inside (n : ObjectId) : Awaitable → Bool
  | .leaf o _ => decide (o < n)
  | .wake => true
  | .coroutine o => decide (o < n)
  | .async o => decide (o < n)
  | .comp o _ _ as => decide (o < n) && insideAll n as
  | .slice => true
  | .ref a => a.inside n

def Awaitable.insideAll (n : ObjectId) : List Awaitable → Bool
  | [] => true
  | a :: as => a.inside n && insideAll n as
end

namespace State

def init : State where
  now := 0
  prios := fun _ => .of PriorityConsts.inherit
  handles := fun _ => ⟨⟨0, 0, PriorityConsts.inherit⟩, false⟩
  next := 0
  coros := fun _ => { prio := .of PriorityConsts.inherit, latency := 0, env := .elsewhere }
  nextCoro := 0
  tokens := []

/-- A copy of an awaitable. The copy of object `o` is number `s.next + o`; a copied handle has no
completion token. -/
def copy (s : State) (a : Awaitable) : Awaitable × State :=
  (a.rename (s.next + ·),
    { s with
      prios := fun o => if o < s.next then s.prios o else s.prios (o - s.next)
      handles := fun o =>
        if o < s.next then s.handles o else ⟨(s.handles (o - s.next)).handle, false⟩
      next := s.next + s.next })

def setCoro (s : State) (c : CoroId) (d : Coro) : State :=
  { s with coros := Function.update s.coros c d }

def setPrio (s : State) (o : ObjectId) (x : Prio) : State :=
  { s with prios := Function.update s.prios o x }

def setAwaited (s : State) (o : ObjectId) (awaited : Bool) : State :=
  { s with handles := Function.update s.handles o ⟨(s.handles o).handle, awaited⟩ }

def newToken (s : State) (tkn : Token) : State := { s with tokens := s.tokens ++ [tkn] }

/-! ### Processes -/

/-- `coroutine_data::bind_` after its check of `env_`. -/
def startCoro (s : State) (c : CoroId) (priority : Int) (b : Binder) : State :=
  let d := s.coros c
  let x := d.prio.bind priority
  (s.setCoro c { d with prio := x, env := .here, binder := some b }).newToken
    ⟨s.now + d.latency, x.priority, some c, some ⟨d.prio.given, b⟩⟩

/-- `coroutine_data::bind_`. -/
def bind_ (s : State) (c : CoroId) (priority : Int) (b : Binder) :
    Except (Exn Unit) Unit × State :=
  match (s.coros c).env with
  | .elsewhere =>
    (.error (.runtimeError
      "cannot bind an already bound coroutine to another environment."), s)
  | .here => (.ok (), s)
  | .unbound => (.ok (), s.startCoro c priority b)

/-- The completion token that a handle makes. -/
def newCompletion (s : State) (p : Handle) (coroData : Option CoroId) : State :=
  s.newToken ⟨p.retLatency, resolvePriority p.retPriority (s.coros p.coro).prio.priority,
    coroData, none⟩

/-- `coroutine::await_suspend`. -/
def suspendHandle (s : State) (o : ObjectId) (coroData : Option CoroId) :
    Except (Exn Unit) Unit × State :=
  if (s.handles o).awaited then
    (.error (.runtimeError "coroutine<> is already being awaited!"), s)
  else (.ok (), (s.newCompletion (s.handles o).handle coroData).setAwaited o true)

/-- `coroutine::await_resume(no_return_value_tag)`. The completion token has the exception with
which the process has ended. -/
def resumeHandle (s : State) (o : ObjectId) : Except (Exn Unit) Unit × State :=
  if (s.handles o).awaited && (s.coros (s.handles o).handle.coro).failed then
    (.error (.user ()), s.setAwaited o false)
  else (.ok (), s.setAwaited o false)

/-- `async_awaitable::await_bind`. -/
def detach (s : State) (o : ObjectId) (priority : Int) (b : Binder) :
    Except (Exn Unit) Unit × State :=
  match s.bind_ (s.handles o).handle.coro priority b with
  | (.error e, s) => (.error e, s)
  | (.ok _, s) =>
    if (s.coros (s.handles o).handle.coro).complete then s.resumeHandle o
    else
      match s.suspendHandle o none with
      | (.error e, s) => (.error e, s)
      | (.ok _, s) => s.resumeHandle o

end State

/-! ### The awaitable protocol -/

mutual
/-- `await_bind(env, priority)`, called for `b`. -/
def awaitBind (priority : Int) (b : Binder) :
    Awaitable → State → Except (Exn Unit) Unit × State
  | .leaf o _, s => (.ok (), s.setPrio o ((s.prios o).bind priority))
  | .wake, s => (.ok (), s)
  | .coroutine o, s => s.bind_ (s.handles o).handle.coro priority b
  | .async o, s => s.detach o priority b
  | .comp o _ _ as, s =>
    let x := (s.prios o).bind priority
    awaitBindAll x.priority (b.within x.given) as (s.setPrio o x)
  -- `derived()` casts to a class that the object does not have
  | .slice, s => (.ok (), { s with undefined := true })
  | .ref a, s => awaitBind priority b a s

def awaitBindAll (priority : Int) (b : Binder) :
    List Awaitable → State → Except (Exn Unit) Unit × State
  | [], s => (.ok (), s)
  | a :: as, s =>
    match awaitBind priority b a s with
    | (.error e, s) => (.error e, s)
    | (.ok _, s) => awaitBindAll priority b as s
end

mutual
/-- `await_ready()`. -/
def awaitReady (s : State) : Awaitable → Bool
  | .leaf _ (.timeout relative time) => !relative && decide (time ≤ s.now)
  | .leaf _ (.wait _) => false
  | .wake => true
  | .coroutine o => (s.coros (s.handles o).handle.coro).complete
  | .async _ => true
  | .comp _ cond _ as => cond.holds as.length ((awaitReadyAll s as).count false)
  | .slice => false
  | .ref a => awaitReady s a

def awaitReadyAll (s : State) : List Awaitable → List Bool
  | [] => []
  | a :: as => awaitReady s a :: awaitReadyAll s as
end

/-- The token of a `delay`, `until` or `wait`. -/
def Leaf.time (now : Int) : Leaf → Int
  | .timeout relative time => if relative then now + time else time
  | .wait latency => latency

mutual
/-- `await_suspend(coro_data)`, after it has been bound for `b`. -/
def awaitSuspend (coroData : Option CoroId) (b : Binder) :
    Awaitable → State → Except (Exn Unit) Unit × State
  | .leaf o l, s =>
    (.ok (), s.newToken
      ⟨l.time s.now, (s.prios o).priority, coroData, some ⟨(s.prios o).given, b⟩⟩)
  | .wake, s => (.ok (), s)
  | .coroutine o, s => s.suspendHandle o coroData
  | .async _, s => (.ok (), s)
  | .comp o _ latency as, s =>
    awaitSuspendAll coroData (b.within (s.prios o).given) as
      (s.newToken ⟨latency, (s.prios o).priority, coroData, none⟩)
  | .slice, s => (.ok (), { s with undefined := true })
  | .ref a, s => awaitSuspend coroData b a s

/-- The loop over the children. Those that are ready are skipped: their answers are the same as
in `await_ready()`. -/
def awaitSuspendAll (coroData : Option CoroId) (b : Binder) :
    List Awaitable → State → Except (Exn Unit) Unit × State
  | [], s => (.ok (), s)
  | a :: as, s =>
    if awaitReady s a then awaitSuspendAll coroData b as s
    else
      match awaitSuspend coroData b a s with
      | (.error e, s) => (.error e, s)
      | (.ok _, s) => awaitSuspendAll coroData b as s
end

mutual
/-- `await_resume(no_return_value_tag{})`. -/
def awaitResume : Awaitable → State → Except (Exn Unit) Unit × State
  | .coroutine o, s => s.resumeHandle o
  | .comp _ _ _ as, s => awaitResumeAll as s
  | .ref a, s => awaitResume a s
  | _, s => (.ok (), s)

def awaitResumeAll : List Awaitable → State → Except (Exn Unit) Unit × State
  | [], s => (.ok (), s)
  | a :: as, s =>
    match awaitResume a s with
    | (.error e, s) => (.error e, s)
    | (.ok _, s) => awaitResumeAll as s
end

namespace State

/-- `co_await a` in process `c`. `awaitable_wrapper` holds a copy of `a`. -/
def coAwait (s : State) (c : CoroId) (a : Awaitable) : Except (Exn Unit) Unit × State :=
  let a' := (s.copy a).1
  let priority := (s.coros c).prio.priority
  match awaitBind priority ⟨[], priority⟩ a' (s.copy a).2 with
  | (.error e, s) => (.error e, s)
  | (.ok _, s) =>
    if awaitReady s a' then awaitResume a' s
    else
      match awaitSuspend (some c) ⟨[], priority⟩ a' s with
      | (.error e, s) => (.error e, s)
      | (.ok _, s) => (.ok (), s.setCoro c { s.coros c with waiting := some a' })

/-- `environment::bind`, of a copy of the handle. -/
def bind (s : State) (p : Handle) : Except (Exn Unit) Unit × State :=
  match s.bind_ p.coro 0 .environment with
  | (.error e, s) => (.error e, s)
  | (.ok _, s) =>
    if (s.coros p.coro).complete then (.ok (), s) else (.ok (), s.newCompletion p none)

end State

/-- What happens in a program.

* `object p` makes a `delay`, `until`, `wait` or composition, `handle c` a handle, and
  `coroutine p latency` calls a coroutine function.
* `setPrio o p` is `o.priority(p)`, or another awaitable is assigned to the object.
* `finish c failed` is the end of a body, and `resume c` that of a `co_await`. -/
inductive Op where
  | object (priority : Int)
  | handle (p : Handle)
  | coroutine (priority latency : Int)
  | setPrio (o : ObjectId) (priority : Int)
  | setHandle (o : ObjectId) (p : Handle)
  | setCoroPrio (c : CoroId) (priority : Int)
  | bind (p : Handle)
  | bindElsewhere (c : CoroId)
  | coAwait (c : CoroId) (a : Awaitable)
  | resume (c : CoroId)
  | finish (c : CoroId) (failed : Bool)
  | advance (d : Int)

namespace State

def exec (s : State) : Op → State
  | .object priority => { s.setPrio s.next (.of priority) with next := s.next + 1 }
  | .handle p =>
    { s with handles := Function.update s.handles s.next ⟨p, false⟩, next := s.next + 1 }
  | .coroutine priority latency =>
    { s.setCoro s.nextCoro { prio := .of priority, latency := latency } with
      nextCoro := s.nextCoro + 1 }
  | .setPrio o priority => s.setPrio o (.of priority)
  | .setHandle o p => { s with handles := Function.update s.handles o ⟨p, false⟩ }
  | .setCoroPrio c priority => s.setCoro c { s.coros c with prio := .of priority }
  | .bind p => (s.bind p).2
  | .bindElsewhere c => s.setCoro c { s.coros c with env := .elsewhere }
  | .coAwait c a => (s.coAwait c a).2
  | .resume c =>
    match (s.coros c).waiting with
    | none => s
    | some a => (awaitResume a (s.setCoro c { s.coros c with waiting := none })).2
  | .finish c failed => s.setCoro c { s.coros c with complete := true, failed := failed }
  | .advance d => { s with now := s.now + d }

/-- The operation can be done. A process that is bound is given no other priority than an explicit
one. -/
def Allowed (s : State) : Op → Prop
  | .object _ => True
  | .handle p => p.coro < s.nextCoro
  | .coroutine _ _ => True
  | .setPrio o _ => o < s.next
  | .setHandle o p => o < s.next ∧ p.coro < s.nextCoro
  | .setCoroPrio c priority => c < s.nextCoro ∧
    ((s.coros c).env = .unbound ∨ priority ≠ PriorityConsts.inherit)
  | .bind p => p.coro < s.nextCoro
  | .bindElsewhere c => c < s.nextCoro ∧ (s.coros c).env = .unbound
  | .coAwait c a => (s.coros c).env = .here ∧ (s.coros c).complete = false ∧
    (s.coros c).waiting.isNone = true ∧ a.inside s.next = true
  | .resume c => (s.coros c).waiting.isSome = true
  | .finish c _ => (s.coros c).env = .here ∧ (s.coros c).complete = false ∧
    (s.coros c).waiting.isNone = true
  | .advance d => 0 ≤ d

instance (s : State) (op : Op) : Decidable (s.Allowed op) := by
  cases op <;> unfold Allowed <;> infer_instance

def Step (s : State) (op : Op) (s' : State) : Prop := s.Allowed op ∧ s' = s.exec op

end State

end Cxxdes.Priority
