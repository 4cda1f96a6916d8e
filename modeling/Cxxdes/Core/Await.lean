-- SUMMARY: The awaitable protocol: await_bind, await_ready, await_suspend, await_token and await_resume of every awaitable.
import Cxxdes.Core.State

/-!
# Awaitables

The member functions of the awaitables, by recursion on the awaitable. Each
returns the awaitable with the fields the function stored in it. A function that
throws returns the exception and the state at that point: what was done to the
environment before is not undone.
-/

namespace Cxxdes

variable {P : Program}

/-- The handle of a coroutine to be started: an existing one, or that of a fresh
process. Other awaitables are wrapped in a `seq_proc_tuple`. -/
def toHandle (s : State P) : Awaitable P.User → Handle × State P
  | .coroutine p _ => (p, s)
  | .ref h => ((s.objects h).1, s)
  | .call f o => (⟨s.nextCoro, o.retLatency, o.retPriority⟩, s.newCoro (.user (P.start f)) o)
  | .sequential as o => (⟨s.nextCoro, o.retLatency, o.retPriority⟩, s.newCoro (.seq as) o)
  | a => ({ coro := s.nextCoro }, s.newCoro (.seq [a]) {})

/-! ### await_bind -/

mutual
/-- `await_bind(env, priority)`. Coroutines that were only called are given their
`coroutine_data` here. -/
def awaitBind (priority : Int) :
    Awaitable P.User → State P → Except (Exn P.Error) (Awaitable P.User) × State P
  | .timeout relative time own tkn, s =>
    (.ok (.timeout relative time (resolvePriority own priority) tkn), s)
  | .wait evt latency own tkn, s =>
    (.ok (.wait evt latency (resolvePriority own priority) tkn), s)
  | .wake evt, s => (.ok (.wake evt), s)
  | .coroutine p tkn, s =>
    match s.bind_ p.coro priority with
    | (.error e, s) => (.error e, s)
    | (.ok _, s) => (.ok (.coroutine p tkn), s)
  | .ref h, s =>
    match s.bind_ (s.objects h).1.coro priority with
    | (.error e, s) => (.error e, s)
    | (.ok _, s) => (.ok (.ref h), s)
  | .call f o, s =>
    (.ok (.coroutine ⟨s.nextCoro, o.retLatency, o.retPriority⟩ none),
      (s.newCoro (.user (P.start f)) o).startCoro s.nextCoro priority)
  | .sequential as o, s =>
    (.ok (.coroutine ⟨s.nextCoro, o.retLatency, o.retPriority⟩ none),
      (s.newCoro (.seq as) o).startCoro s.nextCoro priority)
  | .async a, s =>
    match (toHandle s a).2.detach (toHandle s a).1 priority with
    | (.error e, s) => (.error e, s)
    | (.ok _, s') => (.ok (.async (.coroutine (toHandle s a).1 none)), s')
  | .comp c as, s =>
    match awaitBindAll (resolvePriority c.priority priority) as s with
    | (.error e, s) => (.error e, s)
    | (.ok as, s) => (.ok (.comp { c with priority := resolvePriority c.priority priority } as), s)

def awaitBindAll (priority : Int) :
    List (Awaitable P.User) → State P → Except (Exn P.Error) (List (Awaitable P.User)) × State P
  | [], s => (.ok [], s)
  | a :: as, s =>
    match awaitBind priority a s with
    | (.error e, s) => (.error e, s)
    | (.ok a, s) =>
      match awaitBindAll priority as s with
      | (.error e, s) => (.error e, s)
      | (.ok as, s) => (.ok (a :: as), s)
end

mutual
/-- `await_bind` is undefined: it dereferences the null `coro_data_` of a handle object that was
moved from, or casts a composition that is sliced. -/
def Awaitable.invalid {U : Type} (moved : HandleId → Bool) : Awaitable U → Bool
  | .ref h | .async (.ref h) => moved h
  | .comp c as => c.sliced || invalidAll moved as
  | _ => false

def Awaitable.invalidAll {U : Type} (moved : HandleId → Bool) : List (Awaitable U) → Bool
  | [] => false
  | a :: as => a.invalid moved || invalidAll moved as
end

/-! ### await_ready -/

mutual
/-- `await_ready()`. Asking a `wake()` wakes the event. A composition asks every
child and stores the answers. -/
def awaitReady : Awaitable P.User → State P → Bool × Awaitable P.User × State P
  | .timeout relative time priority tkn, s =>
    (!relative && decide (time ≤ s.now), .timeout relative time priority tkn, s)
  | .wake evt, s => (true, .wake evt, s.wake evt)
  | .coroutine p tkn, s => ((s.coros p.coro).complete, .coroutine p tkn, s)
  | .ref h, s => ((s.coros (s.objects h).1.coro).complete, .ref h, s)
  | .async a, s => (true, .async a, s)
  | .comp c as, s =>
    let r := awaitReadyAll as s
    let remaining := r.1.count false
    (c.cond.holds as.length remaining,
      .comp { c with remaining := remaining, ready := r.1 } r.2.1, r.2.2)
  | a, s => (false, a, s)

def awaitReadyAll :
    List (Awaitable P.User) → State P → List Bool × List (Awaitable P.User) × State P
  | [], s => ([], [], s)
  | a :: as, s =>
    let r := awaitReady a s
    let rs := awaitReadyAll as r.2.2
    (r.1 :: rs.1, r.2.1 :: rs.2.1, rs.2.2)
end

/-! ### await_token and await_suspend -/

/-- `await_token()`. -/
def awaitToken (s : State P) : Awaitable P.User → Option TokenId
  | .timeout _ _ _ tkn => tkn
  | .wait _ _ _ tkn => tkn
  | .coroutine _ tkn => tkn
  | .ref h => (s.objects h).2
  | .comp c _ => c.tkn
  | _ => none

/-- The composition's handler on the token of a child, if the child has one. -/
def installOn (s : State P) (h : HandlerId) : Option TokenId → State P
  | some t => s.install t h
  | none => s

mutual
/-- `await_suspend(coro_data)`. -/
def awaitSuspend (coroData : Option CoroId) :
    Awaitable P.User → State P → Except (Exn P.Error) (Awaitable P.User) × State P
  | .timeout relative time priority _, s =>
    let pt := if relative then s.now + time else time
    (.ok (.timeout relative time priority (some s.nextToken)),
      (s.newToken ⟨pt, priority, coroData, none, none⟩).scheduleToken s.nextToken)
  | .wait evt latency priority _, s =>
    (.ok (.wait evt latency priority (some s.nextToken)),
      s.newWaiter evt ⟨latency, priority, coroData, none, none⟩)
  | .coroutine p tkn, s =>
    match s.suspendHandle p tkn coroData with
    | (.error e, s) => (.error e, s)
    | (.ok t, s) => (.ok (.coroutine p (some t)), s)
  | .ref h, s =>
    match s.suspendHandle (s.objects h).1 (s.objects h).2 coroData with
    | (.error e, s) => (.error e, s)
    | (.ok t, s) => (.ok (.ref h), s.setObject h (some t))
  | .comp c as, s =>
    match awaitSuspendAll coroData s.nextHandler c.ready as
        (s.newHandler c as.length coroData) with
    | (.error e, s') => (.error e, s')
    | (.ok as, s') => (.ok (.comp { c with tkn := some s.nextToken } as), s')
  | a, s => (.ok a, s)

/-- The loop over the children, which skips those that were ready. -/
def awaitSuspendAll (coroData : Option CoroId) (handler : HandlerId) (ready : List Bool) :
    List (Awaitable P.User) → State P → Except (Exn P.Error) (List (Awaitable P.User)) × State P
  | [], s => (.ok [], s)
  | a :: as, s =>
    if ready.headD false then
      match awaitSuspendAll coroData handler ready.tail as s with
      | (.error e, s) => (.error e, s)
      | (.ok as, s) => (.ok (a :: as), s)
    else
      match awaitSuspend coroData a s with
      | (.error e, s) => (.error e, s)
      | (.ok a, s) =>
        match awaitSuspendAll coroData handler ready.tail as
            (installOn s handler (awaitToken s a)) with
        | (.error e, s) => (.error e, s)
        | (.ok as, s) => (.ok (a :: as), s)
end

/-! ### await_resume -/

mutual
/-- `await_resume(no_return_value_tag{})`. -/
def awaitResumeTag : Awaitable P.User → State P → Except (Exn P.Error) Unit × State P
  | .coroutine _ tkn, s => (s.checkToken tkn, s)
  | .ref h, s => (s.checkToken (s.objects h).2, s.setObject h none)
  | .comp _ as, s => awaitResumeAll as s
  | _, s => (.ok (), s)

def awaitResumeAll : List (Awaitable P.User) → State P → Except (Exn P.Error) Unit × State P
  | [], s => (.ok (), s)
  | a :: as, s =>
    match awaitResumeTag a s with
    | (.error e, s) => (.error e, s)
    | (.ok _, s) => awaitResumeAll as s
end

/-- `await_resume()` of the awaitable of a `co_await` expression. -/
def awaitResume (a : Awaitable P.User) (s : State P) : Result P.Value P.Error × State P :=
  match awaitResumeTag a s with
  | (.error e, s) => (.error e, s)
  | (.ok _, s) =>
    match a with
    | .coroutine p _ => (s.returnValue p.coro, s)
    | .async (.coroutine p _) => (.ok (.handle p), s)
    | _ => (.ok .unit, s)

/-! ### co_await -/

mutual
/-- A copy of an awaitable held by value. A copied handle has no completion
token; a reference stays the same reference. -/
def Awaitable.copy {U : Type} : Awaitable U → Awaitable U
  | .coroutine p _ => .coroutine p none
  | .comp c as => .comp c (copyAll as)
  | a => a

def Awaitable.copyAll {U : Type} : List (Awaitable U) → List (Awaitable U)
  | [] => []
  | a :: as => a.copy :: copyAll as
end

/-- The awaitable that `awaitable_wrapper` holds: a copy, also of a handle that
is named by reference. -/
def Awaitable.wrap (s : State P) : Awaitable P.User → Awaitable P.User
  | .ref h => .coroutine (s.objects h).1 none
  | a => a.copy

/-- The process a `co_await` of a handle waits for. -/
def Awaitable.target {U : Type} : Awaitable U → Option CoroId
  | .coroutine p _ => some p.coro
  | _ => none

namespace State

/-- The result of a `co_await` goes to the body of `c`, which runs on. -/
def deliver (s : State P) (c : CoroId) (target : Option CoroId)
    (k : Result P.Value P.Error → P.Frame) (r : Result P.Value P.Error) : State P :=
  (s.setStatus c (.running (k r))).log (.result c target r s.now)

/-- Control goes back from `resume()` to `step()`, with `c` suspended. -/
def suspend (s : State P) (c : CoroId) (a : Awaitable P.User)
    (k : Result P.Value P.Error → P.Frame) : State P :=
  let s' := { s.setStatus c (.suspended a k) with current := none }
  match a with
  | .coroutine p (some t) => s'.log (.waiting c p.coro t p.retLatency s.now)
  | _ => s'

/-- `co_await a` in the body of `c`: `await_transform` binds the awaitable, and
the body is suspended unless the awaitable is ready. -/
def coAwait (s : State P) (c : CoroId) (a : Awaitable P.User)
    (k : Result P.Value P.Error → P.Frame) : State P :=
  let a := a.wrap s
  match awaitBind (s.coros c).priority a s with
  | (.error e, s) => s.deliver c a.target k (.error e)
  | (.ok a, s) =>
    match awaitReady a s with
    | (true, a, s) =>
      let r := awaitResume a s
      r.2.deliver c a.target k r.1
    | (false, a, s) =>
      match awaitSuspend s.current a s with
      | (.error e, s) => s.deliver c a.target k (.error e)
      | (.ok a, s) => s.suspend c a k

end State

end Cxxdes
