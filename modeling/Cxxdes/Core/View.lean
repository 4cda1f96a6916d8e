-- SUMMARY: Refinement maps between programs with the same coroutine functions, lifted to whole environments.
import Cxxdes.Core.Environment
import Mathlib.Tactic.Common

/-!
# Views

A view replaces the states of the bodies of a program by coarser ones. What a body
asks of the library stays the same, except that steps of the finer body alone may
disappear. The library never looks into a body, so every function of the
environment commutes with the map `State.view`.
-/

namespace Cxxdes

/-- A coarser view of the bodies that meet `Ok`. A body either makes a silent step
that the view does not see, or does what its view does. -/
structure View (P : Program) where
  Body : Type
  start : P.User → Body
  next : Body → P.Memory → Int → P.Memory × Action P.User Body P.Value P.Error
  view : P.Body → Body
  Ok : P.Body → Prop
  rank : P.Body → Nat
  view_start : ∀ u, view (P.start u) = start u
  ok_start : ∀ u, Ok (P.start u)
  ok_next : ∀ b m now, Ok b → (P.next b m now).2.All Ok
  step : ∀ b m now, Ok b →
    (∃ b', P.next b m now = (m, .tau b') ∧ view b' = view b ∧ rank b' < rank b) ∨
      next (view b) m now = ((P.next b m now).1, (P.next b m now).2.map view)

/-- The program of the coarser bodies. -/
abbrev View.program {P : Program} (v : View P) : Program where
  User := P.User
  Body := v.Body
  Memory := P.Memory
  Value := P.Value
  Error := P.Error
  start := v.start
  next := v.next

variable {P : Program} {v : View P}

/-! ### The map -/

def Frame.view (v : View P) : P.Frame → v.program.Frame
  | .user b => .user (v.view b)
  | .seq as => .seq as
  | .raise e => .raise e

def Status.view (v : View P) : Status P → Status v.program
  | .initial f => .initial (f.view v)
  | .running f => .running (f.view v)
  | .suspended a k => .suspended a fun r => (k r).view v
  | .finished => .finished

def CoroData.view (v : View P) (d : CoroData P) : CoroData v.program where
  unique := d.unique
  void := d.void
  latency := d.latency
  priority := d.priority
  env := d.env
  parent := d.parent
  status := d.status.view v
  completionTokens := d.completionTokens
  returnValue := d.returnValue
  startToken := d.startToken

def State.view (v : View P) (s : State P) : State v.program where
  now := s.now
  tokens := s.tokens
  nextToken := s.nextToken
  queue := s.queue
  handlers := s.handlers
  nextHandler := s.nextHandler
  coros c := (s.coros c).view v
  nextCoro := s.nextCoro
  objects := s.objects
  nextObject := s.nextObject
  movedFrom := s.movedFrom
  events := s.events
  managed := s.managed
  current := s.current
  memory := s.memory
  scheduled := s.scheduled
  executed := s.executed
  pushed := s.pushed
  legal := s.legal
  trace := s.trace

def Label.view (v : View P) : Label P → Label v.program
  | .call f o => .call f o
  | .bind a => .bind a
  | .elsewhere c => .elsewhere c
  | .step t => .step t
  | .advance deadline => .advance deadline
  | .exec c => .exec c
  | .reset => .reset

/-! ### Primitive updates -/

section
variable (s : State P)

theorem complete_view (d : CoroData P) : (d.view v).complete = d.complete := by
  unfold CoroData.complete CoroData.view
  cases d.status <;> rfl

/-- Changing a process commutes with the map. -/
theorem setCoro_view (c : CoroId) (d : CoroData P) :
    (s.setCoro c d).view v = (s.view v).setCoro c (d.view v) := by
  have h : (fun c' => ((Function.update s.coros c d) c').view v) =
      Function.update (fun c' => (s.coros c').view v) c (d.view v) :=
    Function.comp_update (CoroData.view v) s.coros c d
  unfold State.setCoro State.view
  simp only [h]

theorem setStatus_view (c : CoroId) (st : Status P) :
    (s.setStatus c st).view v = (s.view v).setStatus c (st.view v) :=
  setCoro_view s c _

theorem newCoro_view (f : P.Frame) (o : Options) :
    (s.newCoro f o).view v = (s.view v).newCoro (f.view v) o := by
  have h : (fun c' => ((Function.update s.coros s.nextCoro (.called f o)) c').view v) =
      Function.update (fun c' => (s.coros c').view v) s.nextCoro ((CoroData.called f o).view v) :=
    Function.comp_update (CoroData.view v) s.coros s.nextCoro _
  unfold State.newCoro State.view
  simp only [h]
  rfl

theorem startCoro_view (c : CoroId) (priority : Int) :
    (s.startCoro c priority).view v = (s.view v).startCoro c priority := by
  have h := setCoro_view (v := v) s c ((s.coros c).started s.current
    (resolvePriority (s.coros c).priority priority) s.nextToken)
  have hco := congrArg State.coros h
  simp only [State.view, State.setCoro] at hco
  simp only [State.startCoro, State.log, State.scheduleToken, State.newToken, State.setCoro,
    State.view, hco]
  rfl

theorem bind_view (c : CoroId) (priority : Int) :
    (s.view v).bind_ c priority = ((s.bind_ c priority).1, (s.bind_ c priority).2.view v) := by
  unfold State.bind_
  have henv : ((s.view v).coros c).env = (s.coros c).env := rfl
  rw [henv]
  cases (s.coros c).env with
  | elsewhere => rfl
  | here => rfl
  | unbound => simp only [startCoro_view]

theorem newCompletion_view (p : Handle) (cd : Option CoroId) :
    (s.newCompletion p cd).view v = (s.view v).newCompletion p cd :=
  setCoro_view (s.newToken _) p.coro _

theorem suspendHandle_view (p : Handle) (tkn : Option TokenId) (cd : Option CoroId) :
    (s.view v).suspendHandle p tkn cd =
      ((s.suspendHandle p tkn cd).1, (s.suspendHandle p tkn cd).2.view v) := by
  cases tkn with
  | none => simp only [State.suspendHandle, newCompletion_view]; rfl
  | some t => rfl

theorem detach_view (p : Handle) (priority : Int) :
    (s.view v).detach p priority = ((s.detach p priority).1, (s.detach p priority).2.view v) := by
  unfold State.detach
  rw [bind_view]
  rcases s.bind_ p.coro priority with ⟨_ | _, s1⟩
  · rfl
  · simp only
    have hc : (((s1.view v).coros p.coro).complete) = (s1.coros p.coro).complete :=
      complete_view (s1.coros p.coro)
    rw [hc]
    split
    · rfl
    · rw [newCompletion_view]

theorem releaseAll_view (ts : List TokenId) :
    (s.releaseAll ts).view v = (s.view v).releaseAll ts := by
  induction ts generalizing s with
  | nil => rfl
  | cons t ts ih => exact ih (s.releaseToken t)

theorem wake_view (evt : EventId) : (s.wake evt).view v = (s.view v).wake evt := by
  have h := releaseAll_view (v := v) s (s.events evt)
  unfold State.wake
  rw [show (s.view v).events evt = s.events evt from rfl, ← h]
  rfl

/-! ### Awaitables -/

theorem toHandle_view (a : Awaitable P.User) :
    toHandle (s.view v) a = ((toHandle s a).1, (toHandle s a).2.view v) := by
  cases a with
  | call f o => simp only [toHandle, newCoro_view, Frame.view, v.view_start]; rfl
  | timeout | wait | wake | sequential | async | comp =>
      simp only [toHandle, newCoro_view]; rfl
  | coroutine | ref => rfl

mutual
theorem awaitBind_view (priority : Int) (a : Awaitable P.User) (s : State P) :
    awaitBind (P := v.program) priority a (s.view v) =
      ((awaitBind priority a s).1, (awaitBind priority a s).2.view v) := by
  cases a with
  | timeout | wait | wake => rfl
  | coroutine p tkn =>
      simp only [awaitBind, bind_view]
      rcases s.bind_ p.coro priority with ⟨_ | _, s1⟩ <;> rfl
  | ref h =>
      have ho : (s.view v).objects h = s.objects h := rfl
      simp only [awaitBind, ho, bind_view]
      rcases s.bind_ (s.objects h).1.coro priority with ⟨_ | _, s1⟩ <;> rfl
  | call f o =>
      simp only [awaitBind, startCoro_view, newCoro_view, Frame.view, v.view_start]; rfl
  | sequential as o => simp only [awaitBind, startCoro_view, newCoro_view]; rfl
  | async a =>
      simp only [awaitBind, toHandle_view, detach_view]
      rcases (toHandle s a).2.detach (toHandle s a).1 priority with ⟨_ | _, s1⟩ <;> rfl
  | comp c as =>
      simp only [awaitBind, awaitBindAll_view (resolvePriority c.priority priority) as s]
      rcases awaitBindAll (resolvePriority c.priority priority) as s with ⟨_ | _, s1⟩ <;> rfl

theorem awaitBindAll_view (priority : Int) (as : List (Awaitable P.User)) (s : State P) :
    awaitBindAll (P := v.program) priority as (s.view v) =
      ((awaitBindAll priority as s).1, (awaitBindAll priority as s).2.view v) := by
  cases as with
  | nil => rfl
  | cons a as =>
      simp only [awaitBindAll, awaitBind_view priority a s]
      rcases awaitBind priority a s with ⟨_ | _, s1⟩
      · rfl
      · simp only [awaitBindAll_view priority as s1]
        rcases awaitBindAll priority as s1 with ⟨_ | _, s2⟩ <;> rfl
end

mutual
theorem awaitReady_view (a : Awaitable P.User) (s : State P) :
    awaitReady (P := v.program) a (s.view v) =
      ((awaitReady a s).1, (awaitReady a s).2.1, (awaitReady a s).2.2.view v) := by
  cases a with
  | timeout | wait | call | sequential | async => rfl
  | wake evt => simp only [awaitReady, wake_view]
  | coroutine p tkn =>
      have hc : ((s.view v).coros p.coro).complete = (s.coros p.coro).complete :=
        complete_view (s.coros p.coro)
      simp only [awaitReady, hc]
  | ref h =>
      have hc : ((s.view v).coros ((s.view v).objects h).1.coro).complete =
          (s.coros (s.objects h).1.coro).complete := complete_view _
      simp only [awaitReady, hc]
  | comp c as => simp only [awaitReady, awaitReadyAll_view as s]

theorem awaitReadyAll_view (as : List (Awaitable P.User)) (s : State P) :
    awaitReadyAll (P := v.program) as (s.view v) =
      ((awaitReadyAll as s).1, (awaitReadyAll as s).2.1, (awaitReadyAll as s).2.2.view v) := by
  cases as with
  | nil => rfl
  | cons a as =>
      simp only [awaitReadyAll, awaitReady_view a s, awaitReadyAll_view as (awaitReady a s).2.2]
end

theorem awaitToken_view (a : Awaitable P.User) : awaitToken (s.view v) a = awaitToken s a := by
  cases a <;> rfl

theorem installOn_view (h : HandlerId) (t : Option TokenId) :
    (installOn s h t).view v = installOn (s.view v) h t := by
  cases t <;> rfl

mutual
theorem awaitSuspend_view (cd : Option CoroId) (a : Awaitable P.User) (s : State P) :
    awaitSuspend (P := v.program) cd a (s.view v) =
      ((awaitSuspend cd a s).1, (awaitSuspend cd a s).2.view v) := by
  cases a with
  | timeout | wait | wake | call | sequential | async => rfl
  | coroutine p tkn =>
      simp only [awaitSuspend, suspendHandle_view]
      rcases s.suspendHandle p tkn cd with ⟨_ | _, s1⟩ <;> rfl
  | ref h =>
      have ho : (s.view v).objects h = s.objects h := rfl
      simp only [awaitSuspend, ho, suspendHandle_view]
      rcases s.suspendHandle (s.objects h).1 (s.objects h).2 cd with ⟨_ | _, s1⟩ <;> rfl
  | comp c as =>
      have h : awaitSuspendAll (P := v.program) cd s.nextHandler c.ready as
          ((s.view v).newHandler c as.length cd) = _ :=
        awaitSuspendAll_view cd s.nextHandler c.ready as (s.newHandler c as.length cd)
      simp only [awaitSuspend]
      rw [show (s.view v).nextHandler = s.nextHandler from rfl, h]
      rcases awaitSuspendAll cd s.nextHandler c.ready as (s.newHandler c as.length cd)
        with ⟨_ | _, s1⟩ <;> rfl

theorem awaitSuspendAll_view (cd : Option CoroId) (hd : HandlerId) (ready : List Bool)
    (as : List (Awaitable P.User)) (s : State P) :
    awaitSuspendAll (P := v.program) cd hd ready as (s.view v) =
      ((awaitSuspendAll cd hd ready as s).1, (awaitSuspendAll cd hd ready as s).2.view v) := by
  cases as with
  | nil => rfl
  | cons a as =>
      simp only [awaitSuspendAll]
      split
      · rw [awaitSuspendAll_view cd hd ready.tail as s]
        rcases awaitSuspendAll cd hd ready.tail as s with ⟨_ | _, s1⟩ <;> rfl
      · rw [awaitSuspend_view cd a s]
        rcases awaitSuspend cd a s with ⟨_ | a', s1⟩
        · rfl
        · simp only [awaitToken_view, ← installOn_view]
          rw [awaitSuspendAll_view cd hd ready.tail as (installOn s1 hd (awaitToken s1 a'))]
          rcases awaitSuspendAll cd hd ready.tail as (installOn s1 hd (awaitToken s1 a'))
            with ⟨_ | _, s2⟩ <;> rfl
end

theorem checkToken_view (tkn : Option TokenId) : (s.view v).checkToken tkn = s.checkToken tkn := by
  have h : (tkn.bind fun t => ((s.view v).tokens t).eptr) =
      tkn.bind fun t => (s.tokens t).eptr := rfl
  unfold State.checkToken
  rw [h]
  cases tkn.bind fun t => (s.tokens t).eptr <;> rfl

theorem returnValue_view (c : CoroId) : (s.view v).returnValue c = s.returnValue c := by
  have h : ((s.view v).coros c).returnValue = (s.coros c).returnValue := rfl
  unfold State.returnValue
  rw [h, show ((s.view v).coros c).void = (s.coros c).void from rfl]
  cases (s.coros c).returnValue <;> rfl

mutual
theorem awaitResumeTag_view (a : Awaitable P.User) (s : State P) :
    awaitResumeTag (P := v.program) a (s.view v) =
      ((awaitResumeTag a s).1, (awaitResumeTag a s).2.view v) := by
  cases a with
  | comp c as => exact awaitResumeAll_view as s
  | coroutine p tkn => simp only [awaitResumeTag, checkToken_view]
  | ref h =>
      have ho : (s.view v).objects h = s.objects h := rfl
      simp only [awaitResumeTag, checkToken_view, ho]
      rfl
  | timeout | wait | wake | call | sequential | async => rfl

theorem awaitResumeAll_view (as : List (Awaitable P.User)) (s : State P) :
    awaitResumeAll (P := v.program) as (s.view v) =
      ((awaitResumeAll as s).1, (awaitResumeAll as s).2.view v) := by
  cases as with
  | nil => rfl
  | cons a as =>
      simp only [awaitResumeAll, awaitResumeTag_view a s]
      rcases awaitResumeTag a s with ⟨_ | _, s1⟩
      · rfl
      · exact awaitResumeAll_view as s1
end

theorem awaitResume_view (a : Awaitable P.User) :
    awaitResume (P := v.program) a (s.view v) =
      ((awaitResume a s).1, (awaitResume a s).2.view v) := by
  simp only [awaitResume, awaitResumeTag_view a s]
  rcases awaitResumeTag a s with ⟨_ | _, s1⟩
  · rfl
  · simp only
    cases a with
    | coroutine p tkn => simp only [returnValue_view]
    | async a => cases a <;> rfl
    | timeout | wait | wake | ref | call | sequential | comp => rfl

theorem deliver_view (c : CoroId) (target : Option CoroId)
    (k : Result P.Value P.Error → P.Frame) (r : Result P.Value P.Error) :
    (s.deliver c target k r).view v = (s.view v).deliver c target (fun r => (k r).view v) r := by
  have h := setStatus_view (v := v) s c (.running (k r))
  unfold State.deliver
  rw [show (Status.running ((k r).view v) : Status v.program) = (Status.running (k r)).view v
    from rfl, ← h]
  rfl

theorem takeObject_view (h : HandleId) : (s.view v).takeObject h = s.takeObject h := by
  unfold State.takeObject
  rw [show (s.view v).objects = s.objects from rfl,
    show (((s.view v).coros (s.objects h).1.coro).complete) =
      (s.coros (s.objects h).1.coro).complete
      from complete_view _]
  simp only [awaitResume_view]

theorem moveAwait_view (c : CoroId) (h : HandleId)
    (k : Except (Result P.Value P.Error) Handle → P.Frame) :
    (s.moveAwait c h k).view v = (s.view v).moveAwait c h fun r => (k r).view v := by
  unfold State.moveAwait
  rw [takeObject_view]
  cases s.takeObject h with
  | ok p => exact setStatus_view (s.moveObject h) c (.running (k (.ok p)))
  | error r =>
      exact deliver_view (s.moveObject h) c (some (s.objects h).1.coro) (fun r => k (.error r)) r

theorem suspend_view (c : CoroId) (a : Awaitable P.User)
    (k : Result P.Value P.Error → P.Frame) :
    (s.suspend c a k).view v = (s.view v).suspend c a fun r => (k r).view v := by
  have h := setStatus_view (v := v) s c (.suspended a k)
  have hst : (Status.suspended a fun r => (k r).view v : Status v.program) =
      (Status.suspended a k).view v := rfl
  unfold State.suspend
  rw [hst, ← h]
  cases a with
  | coroutine p tkn => cases tkn <;> rfl
  | timeout | wait | wake | ref | call | sequential | async | comp => rfl

theorem coAwait_view (c : CoroId) (a : Awaitable P.User)
    (k : Result P.Value P.Error → P.Frame) :
    (s.coAwait c a k).view v = (s.view v).coAwait c a fun r => (k r).view v := by
  have hw : a.wrap (s.view v) = a.wrap s := by cases a <;> rfl
  have hp : ((s.view v).coros c).priority = (s.coros c).priority := rfl
  unfold State.coAwait
  simp only [hw, hp, awaitBind_view]
  rcases awaitBind (s.coros c).priority (a.wrap s) s with ⟨_ | a1, s1⟩
  · exact deliver_view ..
  · simp only [awaitReady_view]
    rcases awaitReady a1 s1 with ⟨_ | _, a2, s2⟩
    · have hcur : (s2.view v).current = s2.current := rfl
      simp only [hcur, awaitSuspend_view]
      rcases awaitSuspend s2.current a2 s2 with ⟨_ | a3, s3⟩
      · exact deliver_view ..
      · exact suspend_view ..
    · simp only [awaitResume_view]
      exact deliver_view ..

end

/-! ### Transitions -/

section
variable (s : State P)

theorem propagateException_view (c : CoroId) (e : Exn P.Error) :
    (s.propagateException c e).view v = (s.view v).propagateException c e := by
  have h : ∀ (ts : List TokenId) (u : State P),
      (ts.foldl (fun s t => s.setToken t { s.tokens t with eptr := some e }) u).view v =
        ts.foldl (fun s t => s.setToken t { s.tokens t with eptr := some e }) (u.view v) := by
    intro ts
    induction ts with
    | nil => exact fun _ => rfl
    | cons t ts ih => exact fun u => ih (u.setToken t { u.tokens t with eptr := some e })
  exact h (s.coros c).completionTokens s

theorem doReturn_view (c : CoroId) (r : Result P.Value P.Error) :
    (s.doReturn c r).view v = (s.view v).doReturn c r := by
  have h1 := releaseAll_view (v := v) s (s.coros c).completionTokens
  have h2 : (s.scheduleCompletion c).view v = (s.view v).scheduleCompletion c := by
    unfold State.scheduleCompletion
    rw [setCoro_view, h1]
    rfl
  have h3 : ((s.scheduleCompletion c).setStatus c .finished).view v =
      ((s.view v).scheduleCompletion c).setStatus c .finished := by
    rw [setStatus_view, h2]
    rfl
  simp only [State.doReturn, ← h3]
  rfl

theorem nullCompletionToken_view (c : CoroId) :
    (s.view v).nullCompletionToken c = s.nullCompletionToken c := rfl

theorem returnFrom_view (c : CoroId) (r : Option P.Value) :
    (s.view v).returnFrom c r = (s.returnFrom c r).map (State.view v) := by
  unfold State.returnFrom
  rw [nullCompletionToken_view, show ((s.view v).coros c).void = (s.coros c).void from rfl]
  split
  · rfl
  · split
    · rfl
    · simp only [Except.map, doReturn_view, setCoro_view]
      rfl

theorem unhandledException_view (c : CoroId) (e : Exn P.Error) :
    (s.view v).unhandledException c e = (s.unhandledException c e).map (State.view v) := by
  unfold State.unhandledException
  rw [nullCompletionToken_view]
  split
  · rfl
  · simp only [Except.map, doReturn_view, propagateException_view]

/-- What the frames of the finer program meet. -/
def Frame.Ok (v : View P) : P.Frame → Prop
  | .user b => v.Ok b
  | _ => True

def Frame.rank (v : View P) : P.Frame → Nat
  | .user b => v.rank b
  | _ => 0

theorem Frame.step_view {f : P.Frame} (hf : f.Ok v) (m : P.Memory) (now : Int) :
    (∃ f', f.next m now = (m, .tau f') ∧ f'.view v = f.view v ∧ f'.rank v < f.rank v) ∨
      (f.view v).next m now = ((f.next m now).1, (f.next m now).2.map (Frame.view v)) := by
  cases f with
  | user b =>
      rcases v.step b m now hf with ⟨b', hb, hview, hrank⟩ | hb
      · refine .inl ⟨.user b', ?_, congrArg Frame.user hview, hrank⟩
        simp only [Frame.next, hb]
        rfl
      · refine .inr ?_
        simp only [Frame.view, Frame.next, hb]
        cases (P.next b m now).2 <;> rfl
  | seq as =>
      refine .inr ?_
      cases as with
      | nil => rfl
      | cons a as =>
          cases a with
          | ref h =>
              simp only [Frame.view, Frame.next, Action.map]
              refine congrArg (fun k => (m, Action.move h k)) ?_
              funext r
              rcases r with (_ | _) | _ <;> rfl
          | timeout | wait | wake | coroutine | call | sequential | async | comp =>
              simp only [Frame.view, Frame.next, Action.map]
              refine congrArg (fun k => (m, Action.await _ k)) ?_
              funext r
              cases r <;> rfl
  | raise e => exact .inr rfl

/-- A body does what its view does. -/
theorem exec_lockstep {c : CoroId} {f : P.Frame} (hst : (s.coros c).status = .running f)
    (hf : (f.view v).next s.memory s.now =
      ((f.next s.memory s.now).1, (f.next s.memory s.now).2.map (Frame.view v))) :
    (s.view v).exec c = (s.exec c).map (State.view v) := by
  have hst' : ((s.view v).coros c).status = .running (f.view v) := by
    change (s.coros c).status.view v = _
    rw [hst]
    rfl
  have hnext : (f.view v).next (s.view v).memory (s.view v).now =
      ((f.next s.memory s.now).1, (f.next s.memory s.now).2.map (Frame.view v)) := hf
  let s' : State P := { s with memory := (f.next s.memory s.now).1 }
  have hs' : ({ s.view v with memory := (f.next s.memory s.now).1 } : State v.program) =
      s'.view v := rfl
  rw [State.exec_of_running hst, State.exec_of_running hst', hnext, hs',
    show ({ s with memory := (f.next s.memory s.now).1 } : State P) = s' from rfl]
  cases (f.next s.memory s.now).2 with
  | tau g => exact congrArg Except.ok (setStatus_view s' c (.running g)).symm
  | await a k =>
      simp only [Action.map, show (s.view v).movedFrom = s.movedFrom from rfl]
      split
      · rfl
      · exact congrArg Except.ok (coAwait_view s' c a k).symm
  | create g o k =>
      simp only [Action.map, Except.map, setStatus_view, newCoro_view, Frame.view, v.view_start]
      rfl
  | declare p k =>
      exact congrArg Except.ok (setStatus_view (s'.newObject p) c (.running (k s.nextObject))).symm
  | move h k =>
      simp only [Action.map, show (s.view v).movedFrom = s.movedFrom from rfl]
      split
      · rfl
      · exact congrArg Except.ok (moveAwait_view s' c h k).symm
  | bind p k =>
      simp only [Action.map, detach_view]
      rcases s'.detach p 0 with ⟨e | _, s1⟩
      · exact congrArg Except.ok (setStatus_view s1 c (.running (k (.error e)))).symm
      · exact congrArg Except.ok (setStatus_view s1 c (.running (k (.ok .unit)))).symm
  | coReturn r => exact returnFrom_view s' c r
  | throw e => exact unhandledException_view s' c e

/-- A silent step of a body does not show. -/
theorem exec_silent {c : CoroId} {f f' : P.Frame} (hst : (s.coros c).status = .running f)
    (hf : f.next s.memory s.now = (s.memory, .tau f')) (hview : f'.view v = f.view v) :
    ∃ s', s.exec c = .ok s' ∧ s'.view v = s.view v ∧
      s'.coros = Function.update s.coros c { s.coros c with status := .running f' } ∧
      s'.memory = s.memory := by
  refine ⟨s.setStatus c (.running f'), ?_, ?_, rfl, rfl⟩
  · unfold State.exec
    simp only [hst, hf]
  · rw [setStatus_view]
    have hcoro : ({ (s.view v).coros c with status := (Status.running f').view v } :
        CoroData v.program) = (s.view v).coros c := by
      have h : (Status.running f').view v = ((s.view v).coros c).status := by
        change _ = (s.coros c).status.view v
        rw [hst]
        exact congrArg Status.running hview
      rw [h]
    unfold State.setStatus State.setCoro
    rw [hcoro, Function.update_eq_self]

theorem resume_view (c : CoroId) (t : TokenId) :
    (s.view v).resume c t = (s.resume c t).map (State.view v) := by
  have hst' : ((s.view v).coros c).status = (s.coros c).status.view v := rfl
  unfold State.resume
  rw [hst']
  cases (s.coros c).status with
  | initial f =>
      simp only [Status.view, Except.map, State.log]
      rw [show ((s.view v).setStatus c (.running (f.view v))) =
        (s.setStatus c (.running f)).view v from (setStatus_view s c (.running f)).symm]
      rfl
  | suspended a k =>
      simp only [Status.view, awaitResume_view]
      exact congrArg Except.ok
        (deliver_view ((awaitResume a s).2.log (.resumed c t s.now)) c a.target k _).symm
  | running f => rfl
  | finished => rfl

theorem step_view (t : TokenId) : (s.view v).step t = (s.step t).map (State.view v) := by
  have hp : (s.view v).pop t = (s.pop t).view v := rfl
  unfold State.step
  simp only [hp]
  rw [show ((s.pop t).view v).tokens = (s.pop t).tokens from rfl]
  cases ((s.pop t).tokens t).handler with
  | some h =>
      have hi : ((s.pop t).view v).invoke h t =
          (((s.pop t).invoke h t).1, ((s.pop t).invoke h t).2.view v) := by
        unfold State.invoke
        simp only [show ((s.pop t).view v).tokens = (s.pop t).tokens from rfl,
          show ((s.pop t).view v).handlers = (s.pop t).handlers from rfl]
        cases ((s.pop t).tokens t).eptr with
        | some e => rfl
        | none =>
            cases ((s.pop t).handlers h).completionTkn with
            | none => rfl
            | some out => simp only; split <;> rfl
      simp only [hi]
      rcases (s.pop t).invoke h t with ⟨_ | e, s1⟩ <;> rfl
  | none =>
      cases ((s.pop t).tokens t).coroData with
      | some c => exact resume_view { s.pop t with current := some c } c t
      | none =>
          cases ((s.pop t).tokens t).eptr with
          | some e => rfl
          | none => rfl

theorem destroyAll_view (cs : List CoroId) :
    (s.destroyAll cs).view v = (s.view v).destroyAll cs := by
  induction cs generalizing s with
  | nil => rfl
  | cons c cs ih =>
      have hc : ((s.view v).coros c).complete = (s.coros c).complete := complete_view _
      simp only [State.destroyAll, List.foldl_cons, hc]
      split
      · exact ih s
      · have h := setStatus_view (v := v) s c .finished
        exact (ih (s.setStatus c .finished)).trans (congrArg (State.destroyAll · cs) h)

theorem reset_view : s.reset.view v = (s.view v).reset := by
  have h := destroyAll_view (v := v) s s.managed
  unfold State.reset
  rw [show (s.view v).managed = s.managed from rfl, ← h]
  rfl

theorem bind_call_view (a : Awaitable P.User) :
    State.bind (P := v.program) (s.view v) a = (s.bind a).view v := by
  simp only [State.bind, toHandle_view, detach_view]

end

end Cxxdes
