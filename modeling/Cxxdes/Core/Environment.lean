-- SUMMARY: Running processes, environment::step, reset and bind, and the transition system of an environment.
import Cxxdes.Core.Await
import Cxxdes.Logic.Transition
import Cxxdes.Logic.WeakOrder

/-!
# Environments in motion

A transition of the system is one action of a running body, one `step()` up to
the resumption of a body, or one call of the program that owns the environment.
`std::priority_queue` is modelled by its contract only: `top()` may be any
pending token that the contract allows.
-/

namespace Cxxdes

/-- Undefined behaviour: what an assertion checks or a null dereference. (Signed overflow is
left to `State.Fits`.) -/
inductive Fault where
  /-- `assert(!complete_)` in `coroutine_data::resume`. -/
  | resumeComplete
  /-- Resuming a coroutine that is not suspended. -/
  | resumeRunning
  /-- `completion_token_` of a unique process is null. -/
  | nullCompletionToken
  /-- `coro_data_` of a handle that has been moved from is null. -/
  | nullHandle
  /-- Awaiting such a handle, or a composition that is sliced. -/
  | invalidAwait
  /-- Not a C++ program: a `co_return` that does not fit the return type, or an
  action of a body that is not running. -/
  | illTyped
deriving DecidableEq

namespace State

variable {P : Program}

/-! ### The end of a process -/

/-- `propagate_exception`: the exception goes to every completion token. -/
def propagateException (s : State P) (c : CoroId) (e : Exn P.Error) : State P :=
  (s.coros c).completionTokens.foldl
    (fun s t => s.setToken t { s.tokens t with eptr := some e }) s

/-- `schedule_completion_`. -/
def scheduleCompletion (s : State P) (c : CoroId) : State P :=
  (s.releaseAll (s.coros c).completionTokens).setCoro c { s.coros c with completionTokens := [] }

/-- `coroutine_data_::do_return`, after which the coroutine frame is destroyed
and `resume()` returns to `step()`. -/
def doReturn (s : State P) (c : CoroId) (r : Result P.Value P.Error) : State P :=
  let s' := (s.scheduleCompletion c).setStatus c .finished
  { s' with managed := s'.managed.erase c, current := none }.log (.returned c r s.now)

/-- Whether `completion_token_` would be dereferenced while it is null. -/
def nullCompletionToken (s : State P) (c : CoroId) : Bool :=
  (s.coros c).unique && (s.coros c).completionTokens.isEmpty

/-- `return_value` and `return_void` of the promise. -/
def returnFrom (s : State P) (c : CoroId) (v : Option P.Value) : Except Fault (State P) :=
  if v.isSome = (s.coros c).void then .error .illTyped
  else if s.nullCompletionToken c then .error .nullCompletionToken
  else .ok ((s.setCoro c { s.coros c with returnValue := v }).doReturn c (.ok (.ofReturn v)))

/-- `promise_type::unhandled_exception`. -/
def unhandledException (s : State P) (c : CoroId) (e : Exn P.Error) : Except Fault (State P) :=
  if s.nullCompletionToken c then .error .nullCompletionToken
  else .ok ((s.propagateException c e).doReturn c (.error e))

/-! ### One action of a body -/

/-- The handle that a `co_await` moves out of the handle object `h`, or how the `co_await` ends if
a completion token is moved with it: `await_ready()` is true, or `await_suspend()` throws. -/
def takeObject (s : State P) (h : HandleId) : Except (Result P.Value P.Error) Handle :=
  match (s.objects h).2 with
  | none => .ok (s.objects h).1
  | some t =>
    if (s.coros (s.objects h).1.coro).complete then
      .error (awaitResume (.coroutine (s.objects h).1 (some t)) s).1
    else .error (.error (.runtimeError "coroutine<> is already being awaited!"))

/-- The beginning of `co_await std::move(*h)`. -/
def moveAwait (s : State P) (c : CoroId) (h : HandleId)
    (k : Except (Result P.Value P.Error) Handle → P.Frame) : State P :=
  match s.takeObject h with
  | .ok p => (s.moveObject h).setStatus c (.running (k (.ok p)))
  | .error r => (s.moveObject h).deliver c (some (s.objects h).1.coro) (fun r => k (.error r)) r

/-- What the body of `c` does next. -/
def exec (s : State P) (c : CoroId) : Except Fault (State P) :=
  match (s.coros c).status with
  | .running f =>
    let s' := { s with memory := (f.next s.memory s.now).1 }
    match (f.next s.memory s.now).2 with
    | .tau f => .ok (s'.setStatus c (.running f))
    | .await a k => if a.invalid s.movedFrom then .error .invalidAwait else .ok (s'.coAwait c a k)
    | .create f o k =>
      .ok ((s'.newCoro (.user (P.start f)) o).setStatus c
        (.running (k ⟨s.nextCoro, o.retLatency, o.retPriority⟩)))
    | .declare p k => .ok ((s'.newObject p).setStatus c (.running (k s.nextObject)))
    | .move h k =>
      if s.movedFrom h then .error .nullHandle
      else .ok (s'.moveAwait c h k)
    | .bind p k =>
      match s'.detach p 0 with
      | (.ok _, s') => .ok (s'.setStatus c (.running (k (.ok .unit))))
      | (.error e, s') => .ok (s'.setStatus c (.running (k (.error e))))
    | .coReturn v => s'.returnFrom c v
    | .throw e => s'.unhandledException c e
  | _ => .error .illTyped

theorem exec_of_running {s : State P} {c : CoroId} {f : P.Frame}
    (hst : (s.coros c).status = .running f) : s.exec c =
      match (f.next s.memory s.now).2 with
      | .tau g =>
        .ok (({ s with memory := (f.next s.memory s.now).1 } : State P).setStatus c (.running g))
      | .await a k =>
        if a.invalid s.movedFrom then .error .invalidAwait
        else .ok (({ s with memory := (f.next s.memory s.now).1 } : State P).coAwait c a k)
      | .create g o k =>
        .ok ((({ s with memory := (f.next s.memory s.now).1 } : State P).newCoro
          (.user (P.start g)) o).setStatus c
            (.running (k ⟨s.nextCoro, o.retLatency, o.retPriority⟩)))
      | .declare p k =>
        .ok ((({ s with memory := (f.next s.memory s.now).1 } : State P).newObject p).setStatus c
          (.running (k s.nextObject)))
      | .move h k =>
        if s.movedFrom h then .error .nullHandle
        else .ok (({ s with memory := (f.next s.memory s.now).1 } : State P).moveAwait c h k)
      | .bind p k =>
        match ({ s with memory := (f.next s.memory s.now).1 } : State P).detach p 0 with
        | (.ok _, s') => .ok (s'.setStatus c (.running (k (.ok .unit))))
        | (.error e, s') => .ok (s'.setStatus c (.running (k (.error e))))
      | .coReturn v => ({ s with memory := (f.next s.memory s.now).1 } : State P).returnFrom c v
      | .throw e =>
        ({ s with memory := (f.next s.memory s.now).1 } : State P).unhandledException c e := by
  unfold exec
  rw [hst]

/-! ### step -/

/-- `tokens_.pop()` with `t` on top, and the advance of the clock. -/
def pop (s : State P) (t : TokenId) : State P :=
  { s with
    queue := s.queue.erase t
    executed := s.executed ++ [t]
    now := max (s.tokens t).time s.now }

/-- The output token of a composition, as `custom_handler::invoke` rewrites it
for the child token `t` before it schedules it. -/
def outputToken (s : State P) (out t : TokenId) : Token P.Error :=
  { s.tokens out with
    time := (s.tokens out).time + (s.tokens t).time
    priority := (s.tokens t).priority
    coroData := (s.tokens t).coroData }

/-- `custom_handler::invoke(tkn)`, with the exception it lets pass. -/
def invoke (s : State P) (h : HandlerId) (t : TokenId) : Option (Exn P.Error) × State P :=
  let hd := { s.handlers h with remaining := sizeDecr (s.handlers h).remaining }
  match (s.tokens t).eptr, hd.completionTkn with
  | some e, _ => (some e, s.setHandler h hd)
  | none, some out =>
    if hd.cond.holds hd.total hd.remaining then
      (none, ((s.setHandler h { hd with completionTkn := none }).setToken out
        (s.outputToken out t)).scheduleToken out)
    else (none, s.setHandler h hd)
  | none, none => (none, s.setHandler h hd)

/-- `coroutine_data::resume`: the body of `c` runs on from `initial_suspend` or
from the `co_await` it is suspended in. `t` is the token that is executed. -/
def resume (s : State P) (c : CoroId) (t : TokenId) : Except Fault (State P) :=
  match (s.coros c).status with
  | .initial f => .ok ((s.setStatus c (.running f)).log (.started c s.now))
  | .suspended a k =>
    let r := awaitResume a s
    .ok ((r.2.log (.resumed c t s.now)).deliver c a.target k r.1)
  | .running _ => .error .resumeRunning
  | .finished => .error .resumeComplete

/-- `environment::step` with `t` on top of the queue, up to the resumption of a
body. An exception that leaves `step()` is recorded in the trace. -/
def step (s : State P) (t : TokenId) : Except Fault (State P) :=
  let s := s.pop t
  match (s.tokens t).handler with
  | some h =>
    match s.invoke h t with
    | (none, s) => .ok s
    | (some e, s) => .ok (s.log (.raised e s.now))
  | none =>
    match (s.tokens t).coroData with
    | some c => { s with current := some c }.resume c t
    | none =>
      match (s.tokens t).eptr with
      | some e => .ok (s.log (.raised e s.now))
      | none => .ok s

/-! ### reset -/

/-- `coroutine->destroy()` for every incomplete process of `coroutines_`. -/
def destroyAll (s : State P) (cs : List CoroId) : State P :=
  cs.foldl (fun s c => if (s.coros c).complete then s else s.setStatus c .finished) s

/-- `environment::reset`. -/
def reset (s : State P) : State P :=
  { s.destroyAll s.managed with managed := [], queue := [], now := 0 }

/-! ### The transition system -/

/-- `token_comp` on the pending tokens. -/
def servedAfter (s : State P) (t u : TokenId) : Prop :=
  (s.tokens t).comp (s.tokens u) = true

instance (s : State P) (t u : TokenId) : Decidable (s.servedAfter t u) :=
  inferInstanceAs (Decidable (_ = true))

/-- No pending token has got another key since it was pushed. -/
def KeysKept (s : State P) : Prop :=
  ∀ t ∈ s.queue, (s.tokens t).key = s.pushed t

/-- `tokens_.top()` may be `t`. The contract of `std::priority_queue` binds it only while the heap
is in order and the keys of the stored tokens are not changed. -/
def IsTop (s : State P) (t : TokenId) : Prop :=
  t ∈ s.queue ∧ (s.Heaped → s.KeysKept → WeakOrder.Served s.servedAfter s.queue t)

/-- `environment::bind(a)`. -/
def bind (s : State P) (a : Awaitable P.User) : State P :=
  ((toHandle s a).2.detach (toHandle s a).1 0).2

end State

/-- The transitions. `call`, `bind`, `advance` (the end of `run_until(T)`) and
`reset` are calls of the program that owns the environment; `elsewhere` is
another environment that binds a process. A transition does not overflow: a sum of times that
leaves `time_integral` is undefined behaviour, as is an invalid `co_await`. -/
inductive Label (P : Program) where
  | call (f : P.User) (o : Options)
  | bind (a : Awaitable P.User)
  | elsewhere (c : CoroId)
  | step (t : TokenId)
  | advance (deadline : Int)
  | exec (c : CoroId)
  | reset

inductive Step {P : Program} : State P → Label P → State P → Prop where
  | call (s f o) : Step s (.call f o) (s.newCoro (.user (P.start f)) o)
  | bind (s a) (hvalid : a.invalid s.movedFrom = false) (hfits : (s.bind a).Fits) :
      Step s (.bind a) (s.bind a)
  | elsewhere (s c) (h : (s.coros c).env = .unbound) :
      Step s (.elsewhere c) (s.setCoro c { s.coros c with env := .elsewhere })
  | step (s t s') (htop : s.IsTop t) (h : s.step t = .ok s') (hfits : s'.Fits) :
      Step s (.step t) s'
  | advance (s deadline)
      (h : s.queue = [] ∨ ∃ t, s.IsTop t ∧ deadline < (s.tokens t).time)
      (hfits : timeIntegral.Fits deadline) :
      Step s (.advance deadline) { s with now := max s.now deadline }
  | exec (s c s') (h : s.exec c = .ok s') (hfits : s'.Fits) : Step s (.exec c) s'
  | reset (s) (hcur : s.current = none) (h : ∀ c f, (s.coros c).status ≠ .running f) :
      Step s .reset s.reset

/-- The states of the runs of a new environment whose steps all meet `C`. -/
def Reachable {P : Program} (C : State P → Label P → Prop) (s : State P) : Prop :=
  ∃ m, Transition.Runs Step C (.init m) s

variable {P : Program}

theorem Reachable.init {C : State P → Label P → Prop} (m : P.Memory) :
    Reachable C (State.init m) :=
  ⟨m, .refl _⟩

theorem Reachable.mono {C C' : State P → Label P → Prop} {s : State P} (h : Reachable C s)
    (hC : ∀ s l, C s l → C' s l) : Reachable C' s := by
  obtain ⟨m, h⟩ := h
  exact ⟨m, h.mono hC⟩

theorem Reachable.trans {C : State P → Label P → Prop} {s s' : State P} (h : Reachable C s)
    (hruns : Transition.Runs Step C s s') : Reachable C s' := by
  obtain ⟨m, h⟩ := h
  exact ⟨m, h.trans hruns⟩

theorem Reachable.next {C : State P → Label P → Prop} {s s' : State P} {l : Label P}
    (h : Reachable C s) (hc : C s l) (hstep : Step s l s') : Reachable C s' := by
  obtain ⟨m, h⟩ := h
  exact ⟨m, h.tail hc hstep⟩

end Cxxdes
