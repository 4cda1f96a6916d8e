-- SUMMARY: What the history of a run says about each process and token, and what the transitions add to it.
import Cxxdes.Run.Sources

/-!
# Histories

`s.boundAt c`, `s.startedAt c`, `s.returnedAs c` and `s.resumedBy t` are the entries of
the trace about process `c` and token `t`. Awaiting adds only entries about processes
that are bound; all others are added when a body gets control or loses it.
-/

namespace Cxxdes

variable {P : Program} {s s' : State P}

/-! ### Projections of the trace -/

namespace Obs

variable {V E : Type}

def boundAt (c : CoroId) : Obs V E → Option Int
  | .bound c' now => if c' = c then some now else none
  | _ => none

def startedAt (c : CoroId) : Obs V E → Option Int
  | .started c' now => if c' = c then some now else none
  | _ => none

def returnedAs (c : CoroId) : Obs V E → Option (Result V E × Int)
  | .returned c' r now => if c' = c then some (r, now) else none
  | _ => none

def resumedBy (t : TokenId) : Obs V E → Option (CoroId × Int)
  | .resumed c t' now => if t' = t then some (c, now) else none
  | _ => none

/-- An entry that `bind_` makes. -/
def IsBound : Obs V E → Prop
  | .bound _ _ => True
  | _ => False

end Obs

namespace State

/-- When the process was bound to this environment. -/
def boundAt (s : State P) (c : CoroId) : List Int := s.trace.filterMap (Obs.boundAt c)

/-- When its body began. -/
def startedAt (s : State P) (c : CoroId) : List Int := s.trace.filterMap (Obs.startedAt c)

/-- How and when its body ended. -/
def returnedAs (s : State P) (c : CoroId) : List (Result P.Value P.Error × Int) :=
  s.trace.filterMap (Obs.returnedAs c)

/-- Which process the token resumed, and when. -/
def resumedBy (s : State P) (t : TokenId) : List (CoroId × Int) :=
  s.trace.filterMap (Obs.resumedBy t)

end State

/-- `s'` has the history of `s` with the entries `os` added. -/
def State.Logs (s : State P) (os : List (Obs P.Value P.Error)) (s' : State P) : Prop :=
  s'.trace = s.trace ++ os

namespace State.Logs

variable {os os' : List (Obs P.Value P.Error)}

theorem boundAt (h : s.Logs os s') (c : CoroId) :
    s'.boundAt c = s.boundAt c ++ os.filterMap (Obs.boundAt c) := by
  unfold State.boundAt
  rw [show s'.trace = _ from h, List.filterMap_append]

theorem startedAt (h : s.Logs os s') (c : CoroId) :
    s'.startedAt c = s.startedAt c ++ os.filterMap (Obs.startedAt c) := by
  unfold State.startedAt
  rw [show s'.trace = _ from h, List.filterMap_append]

theorem returnedAs (h : s.Logs os s') (c : CoroId) :
    s'.returnedAs c = s.returnedAs c ++ os.filterMap (Obs.returnedAs c) := by
  unfold State.returnedAs
  rw [show s'.trace = _ from h, List.filterMap_append]

theorem resumedBy (h : s.Logs os s') (t : TokenId) :
    s'.resumedBy t = s.resumedBy t ++ os.filterMap (Obs.resumedBy t) := by
  unfold State.resumedBy
  rw [show s'.trace = _ from h, List.filterMap_append]

theorem mem (h : s.Logs os s') {o : Obs P.Value P.Error} :
    o ∈ s'.trace ↔ o ∈ s.trace ∨ o ∈ os := by
  rw [show s'.trace = _ from h, List.mem_append]

theorem nil (h : s'.trace = s.trace) : s.Logs [] s' := by
  unfold State.Logs
  rw [h, List.append_nil]

theorem trans {s'' : State P} (h : s.Logs os s') (h' : s'.Logs os' s'') :
    s.Logs (os ++ os') s'' := by
  unfold State.Logs
  rw [show s''.trace = _ from h', show s'.trace = _ from h, List.append_assoc]

end State.Logs

/-! ### Awaiting -/

theorem Edit.logs {cd : Option CoroId} {n : TokenId} {nn : Prop} (he : Edit cd n nn s s') :
    ∃ os, s.Logs os s' ∧ ∀ o ∈ os, ∃ c, o = .bound c s.now := by
  cases he with
  | startCoro c priority => exact ⟨[.bound c s.now], rfl, by simp⟩
  | wake evt => exact ⟨[], .nil (by simp [State.wake]), by simp⟩
  | newCoro | newCompletion | timeout | newWaiter | newHandler | install | setObject =>
      exact ⟨[], .nil rfl, by simp⟩

/-- Awaiting logs the processes that it binds. -/
theorem Edits.logs {cd : Option CoroId} {n : TokenId} {nn : Prop} (he : Edits cd n nn s s') :
    ∃ os, s.Logs os s' ∧ ∀ o ∈ os, o.IsBound := by
  induction he with
  | refl => exact ⟨[], .nil rfl, by simp⟩
  | tail _ he ih =>
      obtain ⟨os, hos, hb⟩ := ih
      obtain ⟨os', hos', hb'⟩ := he.logs
      refine ⟨os ++ os', hos.trans hos', fun o ho => ?_⟩
      rcases List.mem_append.mp ho with ho | ho
      · exact hb o ho
      · obtain ⟨c, rfl⟩ := hb' o ho
        trivial

theorem Obs.IsBound.filterMap {V E α : Type} {os : List (Obs V E)} (h : ∀ o ∈ os, o.IsBound)
    {f : Obs V E → Option α} (hf : ∀ c n, f (.bound c n) = none) : os.filterMap f = [] := by
  refine List.filterMap_eq_nil_iff.mpr fun o ho => ?_
  have hb := h o ho
  cases o with
  | bound c n => exact hf c n
  | started | waiting | resumed | result | returned | raised => exact hb.elim

/-- What awaiting does to the history. -/
structure Quietly (s s' : State P) : Prop where
  startedAt : ∀ c, s'.startedAt c = s.startedAt c
  returnedAs : ∀ c, s'.returnedAs c = s.returnedAs c
  resumedBy : ∀ t, s'.resumedBy t = s.resumedBy t
  mem : ∀ o, ¬ o.IsBound → (o ∈ s'.trace ↔ o ∈ s.trace)

theorem Edits.quietly {cd : Option CoroId} {n : TokenId} {nn : Prop} (he : Edits cd n nn s s') :
    Quietly s s' := by
  obtain ⟨os, hos, hb⟩ := he.logs
  refine ⟨fun c => ?_, fun c => ?_, fun t => ?_, fun o ho => ?_⟩
  · rw [hos.startedAt, Obs.IsBound.filterMap hb fun _ _ => rfl, List.append_nil]
  · rw [hos.returnedAs, Obs.IsBound.filterMap hb fun _ _ => rfl, List.append_nil]
  · rw [hos.resumedBy, Obs.IsBound.filterMap hb fun _ _ => rfl, List.append_nil]
  · rw [hos.mem]
    exact ⟨fun h => h.resolve_right fun h => ho (hb o h), .inl⟩

/-! ### The body loses or keeps control -/

/-- The handle objects that hold a completion token have not changed. -/
def State.Holding (s s' : State P) : Prop :=
  ∀ o t, (s'.objects o).2 = some t → s'.objects o = s.objects o

theorem State.Holding.of_eq (h : s'.objects = s.objects) : s.Holding s' := fun o _ _ => by rw [h]

/-- The body of `c` goes to the state `st`, and `os` is logged. -/
structure Goes (c : CoroId) (st : Status P) (os : List (Obs P.Value P.Error)) (s s' : State P) :
    Prop where
  quiet : Quiet s s'
  coros : s'.coros = Function.update s.coros c { s.coros c with status := st }
  nextCoro : s'.nextCoro = s.nextCoro
  objects : s.Holding s'
  logs : s.Logs os s'

/-- What suspending in `a` logs. -/
def Awaitable.waiting {U V E : Type} (c : CoroId) (now : Int) : Awaitable U → List (Obs V E)
  | .coroutine p (some t) => [.waiting c p.coro t p.retLatency now]
  | _ => []

namespace Goes

theorem setStatus (s : State P) (c : CoroId) (st : Status P) :
    Goes c st [] s (s.setStatus c st) where
  quiet := .setStatus s c st
  coros := rfl
  nextCoro := rfl
  objects := .of_eq rfl
  logs := .nil rfl

theorem deliver (s : State P) (c : CoroId) (target : Option CoroId)
    (k : Result P.Value P.Error → P.Frame) (r : Result P.Value P.Error) :
    Goes c (.running (k r)) [.result c target r s.now] s (s.deliver c target k r) where
  quiet := .deliver s c target k r
  coros := rfl
  nextCoro := rfl
  objects := .of_eq rfl
  logs := rfl

theorem moved (s : State P) (c : CoroId) (o : HandleId) (target : Option CoroId)
    (k : Result P.Value P.Error → P.Frame) (r : Result P.Value P.Error) :
    Goes c (.running (k r)) [.result c target r s.now] s
      ((s.moveObject o).deliver c target k r) where
  quiet := (Quiet.of_coros rfl).trans (.deliver (s.moveObject o) c target k r)
  coros := rfl
  nextCoro := rfl
  objects u t ht := by
    by_cases hu : u = o
    · subst hu
      simp [State.moveObject, State.setObject, State.deliver, State.log, State.setStatus,
        State.setCoro] at ht
    · exact Function.update_of_ne hu _ _
  logs := rfl

theorem suspend (s : State P) (c : CoroId) (a : Awaitable P.User)
    (k : Result P.Value P.Error → P.Frame) :
    Goes c (.suspended a k) (a.waiting c s.now) s (s.suspend c a k) where
  quiet := .suspend s c a k
  coros := suspend_coros s c a k
  nextCoro := suspend_nextCoro s c a k
  objects := .of_eq (suspend_objects s c a k)
  logs := by
    cases a with
    | coroutine p tkn =>
        cases tkn with
        | some t => rfl
        | none => exact .nil rfl
    | timeout | wait | wake | ref | call | sequential | async | comp => exact .nil rfl

end Goes

/-! ### co_await -/

/-- The ways a `co_await` ends. -/
inductive Awaits (s : State P) (c : CoroId) (a : Awaitable P.User)
    (k : Result P.Value P.Error → P.Frame) : State P → Prop where
  | unbound (e : Exn P.Error) (s1 : State P)
      (hb : awaitBind (s.coros c).priority (a.wrap s) s = (.error e, s1)) :
      Awaits s c a k (s1.deliver c (a.wrap s).target k (.error e))
  | ready (a1 a2 : Awaitable P.User) (s1 s2 s3 : State P) (r : Result P.Value P.Error)
      (hb : awaitBind (s.coros c).priority (a.wrap s) s = (.ok a1, s1))
      (hr : awaitReady a1 s1 = (true, a2, s2)) (hres : awaitResume a2 s2 = (r, s3)) :
      Awaits s c a k (s3.deliver c a2.target k r)
  | throws (a1 a2 : Awaitable P.User) (s1 s2 s3 : State P) (e : Exn P.Error)
      (hb : awaitBind (s.coros c).priority (a.wrap s) s = (.ok a1, s1))
      (hr : awaitReady a1 s1 = (false, a2, s2))
      (hsus : awaitSuspend s2.current a2 s2 = (.error e, s3)) :
      Awaits s c a k (s3.deliver c a2.target k (.error e))
  | suspends (a1 a2 a3 : Awaitable P.User) (s1 s2 s3 : State P)
      (hb : awaitBind (s.coros c).priority (a.wrap s) s = (.ok a1, s1))
      (hr : awaitReady a1 s1 = (false, a2, s2))
      (hsus : awaitSuspend s2.current a2 s2 = (.ok a3, s3)) :
      Awaits s c a k (s3.suspend c a3 k)

theorem coAwait_awaits (s : State P) (c : CoroId) (a : Awaitable P.User)
    (k : Result P.Value P.Error → P.Frame) : Awaits s c a k (s.coAwait c a k) := by
  unfold State.coAwait
  rcases hb : awaitBind (s.coros c).priority (a.wrap s) s with ⟨e | a1, s1⟩ <;> simp only [hb]
  · exact .unbound e s1 hb
  · rcases hr : awaitReady a1 s1 with ⟨_ | _, a2, s2⟩
    · rcases hsus : awaitSuspend s2.current a2 s2 with ⟨e | a3, s3⟩ <;> simp only [hsus]
      · exact .throws a1 a2 s1 s2 s3 e hb hr hsus
      · exact .suspends a1 a2 a3 s1 s2 s3 hb hr hsus
    · exact .ready a1 a2 s1 s2 _ _ hb hr rfl

theorem Awaits.suspendThrows {c : CoroId} {a : Awaitable P.User} {a1 a2 : Awaitable P.User}
    {s1 s2 s3 : State P} {e : Exn P.Error}
    (hb : awaitBind (s.coros c).priority (a.wrap s) s = (.ok a1, s1))
    (hr : awaitReady a1 s1 = (false, a2, s2))
    (hsus : awaitSuspend s2.current a2 s2 = (.error e, s3)) : s.suspendThrows c a = true := by
  unfold State.suspendThrows
  simp only [hb, hr, hsus]

/-- A handle that has been bound and is not ready gets its completion token. -/
theorem awaitSuspend_coroutine {cd : Option CoroId} {a : Awaitable P.User} {p : Handle}
    {t : TokenId} (h : awaitSuspend cd a s = (.ok (.coroutine p (some t)), s')) :
    a = .coroutine p none ∧ t = s.nextToken ∧ s' = s.newCompletion p cd := by
  cases a with
  | coroutine p' tkn =>
      cases tkn with
      | some u => simp [awaitSuspend, State.suspendHandle] at h
      | none =>
          simp only [awaitSuspend, State.suspendHandle] at h
          cases h
          exact ⟨rfl, rfl, rfl⟩
  | timeout | wait | wake | call | sequential | async => cases h
  | ref o =>
      unfold awaitSuspend at h
      split at h <;> cases h
  | comp c as =>
      unfold awaitSuspend at h
      split at h <;> cases h

/-! ### await_suspend -/

/-- `await_suspend` binds nothing, calls no coroutine and logs nothing. -/
structure Suspends (s s' : State P) : Prop where
  trace : s'.trace = s.trace
  nextCoro : s'.nextCoro = s.nextCoro
  coro : ∀ c, s'.coros c =
    { s.coros c with completionTokens := (s'.coros c).completionTokens }

namespace Suspends

theorem of_coros (htr : s'.trace = s.trace) (hn : s'.nextCoro = s.nextCoro)
    (hco : s'.coros = s.coros) : Suspends s s' where
  trace := htr
  nextCoro := hn
  coro c := by rw [hco]

theorem trans {s'' : State P} (h : Suspends s s') (h' : Suspends s' s'') : Suspends s s'' where
  trace := h'.trace.trans h.trace
  nextCoro := h'.nextCoro.trans h.nextCoro
  coro c := by rw [h'.coro c, h.coro c]

theorem newCompletion (s : State P) (p : Handle) (cd : Option CoroId) :
    Suspends s (s.newCompletion p cd) where
  trace := rfl
  nextCoro := rfl
  coro c := by
    by_cases hc : c = p.coro
    · subst hc
      simp [State.newCompletion, State.setCoro, State.newToken, CoroData.completionToken]
    · simp [State.newCompletion, State.setCoro, State.newToken, Function.update_of_ne hc]

theorem suspendHandle (s : State P) (p : Handle) (tkn : Option TokenId) (cd : Option CoroId) :
    Suspends s (s.suspendHandle p tkn cd).2 := by
  cases tkn with
  | some t => exact .of_coros rfl rfl rfl
  | none => exact .newCompletion s p cd

end Suspends

mutual
theorem awaitSuspend_suspends (cd : Option CoroId) (a : Awaitable P.User) (s : State P) :
    Suspends s (awaitSuspend cd a s).2 := by
  cases a with
  | timeout | wait | wake | call | sequential | async => exact .of_coros rfl rfl rfl
  | coroutine p tkn =>
      have h1 := Suspends.suspendHandle s p tkn cd
      unfold awaitSuspend
      rcases hr : s.suspendHandle p tkn cd with ⟨_ | _, s1⟩ <;> rw [hr] at h1 <;> exact h1
  | ref h =>
      have h1 := Suspends.suspendHandle s (s.objects h).1 (s.objects h).2 cd
      unfold awaitSuspend
      rcases hr : s.suspendHandle (s.objects h).1 (s.objects h).2 cd with ⟨_ | _, s1⟩ <;>
        rw [hr] at h1
      · exact h1
      · exact h1.trans (.of_coros rfl rfl rfl)
  | comp c as =>
      have h0 : Suspends s (s.newHandler c as.length cd) := .of_coros rfl rfl rfl
      have h1 := h0.trans (awaitSuspendAll_suspends cd s.nextHandler c.ready as _)
      unfold awaitSuspend
      rcases hr : awaitSuspendAll cd s.nextHandler c.ready as (s.newHandler c as.length cd)
        with ⟨_ | _, s1⟩ <;> rw [hr] at h1 <;> exact h1

theorem awaitSuspendAll_suspends (cd : Option CoroId) (h : HandlerId) (ready : List Bool)
    (as : List (Awaitable P.User)) (s : State P) :
    Suspends s (awaitSuspendAll cd h ready as s).2 := by
  cases as with
  | nil => exact .of_coros rfl rfl rfl
  | cons a as =>
      unfold awaitSuspendAll
      split
      · have h1 := awaitSuspendAll_suspends cd h ready.tail as s
        rcases hr : awaitSuspendAll cd h ready.tail as s with ⟨_ | _, s1⟩ <;> rw [hr] at h1 <;>
          exact h1
      · have h1 := awaitSuspend_suspends cd a s
        rcases hr : awaitSuspend cd a s with ⟨_ | a1, s1⟩ <;> rw [hr] at h1
        · exact h1
        · have hi : Suspends s1 (installOn s1 h (awaitToken s1 a1)) := by
            cases awaitToken s1 a1 <;> exact .of_coros rfl rfl rfl
          have h2 := (h1.trans hi).trans (awaitSuspendAll_suspends cd h ready.tail as _)
          simp only
          rcases hr2 : awaitSuspendAll cd h ready.tail as (installOn s1 h (awaitToken s1 a1))
            with ⟨_ | _, s2⟩ <;> rw [hr2] at h2 <;> exact h2
end

/-! ### One action of a body, with its history -/

/-- The handle that a `co_await` found bound and ready is that of a process that is bound
to another environment, or has ended. -/
def State.Settled (s : State P) (q : CoroId) (r : Result P.Value P.Error) : Prop :=
  (s.coros q).env = .elsewhere ∨
    (s.BoundHere q ∧ (s.coros q).complete = true ∧ r = s.returnValue q)

/-- The ways the action `act` of the body of `c` can end, with what is logged. -/
inductive Did (nn : Prop) (s : State P) (c : CoroId)
    (act : Action P.User P.Frame P.Value P.Error) : State P → Prop where
  | goes (s1 s' : State P) (f : P.Frame) (he : ∀ n, Edits none n nn s s1)
      (hg : Goes c (.running f) [] s1 s') : Did nn s c act s'
  | result (a : Awaitable P.User) (k : Result P.Value P.Error → P.Frame) (s1 : State P)
      (target : Option CoroId) (r : Result P.Value P.Error) (hact : act = .await a k)
      (he : ∀ n, Edits none n nn s s1)
      (hset : ∀ q, target = some q → (∃ p, a.wrap s = .coroutine p none ∧ p.coro = q) ∧
        s1.Settled q r) : Did nn s c act (s1.deliver c target k r)
  | throws (a : Awaitable P.User) (k : Result P.Value P.Error → P.Frame) (sm s1 : State P)
      (e : Exn P.Error) (hact : act = .await a k) (hthrow : s.suspendThrows c a = true)
      (hm : ∀ n, Edits none n nn s sm) (he : Edits s.current sm.nextToken nn sm s1)
      (hsus : Suspends sm s1) : Did nn s c act (s1.deliver c none k (.error e))
  | moved (o : HandleId) (k : Except (Result P.Value P.Error) Handle → P.Frame)
      (r : Result P.Value P.Error) (hact : act = .move o k) (hr : s.takeObject o = .error r) :
      Did nn s c act ((s.moveObject o).deliver c (some (s.objects o).1.coro)
        (fun r => k (.error r)) r)
  | suspends (a a' : Awaitable P.User) (k : Result P.Value P.Error → P.Frame) (sm s1 : State P)
      (hact : act = .await a k) (hm : ∀ n, Edits none n nn s sm)
      (he : Edits s.current sm.nextToken nn sm s1) (hsus : Suspends sm s1)
      (htkn : a'.token = some sm.nextToken) (hlt : sm.nextToken < s1.nextToken)
      (hcr : Created s.current sm s1 (some sm.nextToken) none)
      (hco : ∀ p t, a' = .coroutine p (some t) → t = sm.nextToken ∧ sm.BoundHere p.coro ∧
        (sm.coros p.coro).complete = false ∧ s1 = sm.newCompletion p s.current) :
      Did nn s c act (s1.suspend c a' k)
  | returns (v : Option P.Value) (hact : act = .coReturn v)
      (hv : v.isSome ≠ (s.coros c).void) (hnull : s.nullCompletionToken c = false) :
      Did nn s c act ((s.setCoro c { s.coros c with returnValue := v }).doReturn c
        (.ok (.ofReturn v)))
  | fails (e : Exn P.Error) (hact : act = .throw e) (hnull : s.nullCompletionToken c = false) :
      Did nn s c act ((s.propagateException c e).doReturn c (.error e))

theorem copy_coroutine {U : Type} {a : Awaitable U} {p : Handle} {tkn : Option TokenId}
    (h : a.copy = .coroutine p tkn) : tkn = none := by
  cases a <;> cases h
  rfl

theorem wrap_coroutine {a : Awaitable P.User} {p : Handle} {tkn : Option TokenId}
    (h : a.wrap s = .coroutine p tkn) : tkn = none := by
  cases a with
  | ref o => cases h; rfl
  | timeout | wait | wake | coroutine | call | sequential | async | comp =>
      exact copy_coroutine h

/-- A bound handle was a handle, or it is that of a process that has not begun. -/
theorem awaitBind_coroutine {priority : Int} {a : Awaitable P.User} {p : Handle}
    {tkn : Option TokenId} (h : awaitBind priority a s = (.ok (.coroutine p tkn), s')) :
    a = .coroutine p tkn ∨ (s'.coros p.coro).complete = false := by
  cases a with
  | timeout | wait | wake => cases h
  | coroutine q t =>
      unfold awaitBind at h
      split at h <;> cases h
      exact .inl rfl
  | ref o =>
      unfold awaitBind at h
      split at h <;> cases h
  | call f o =>
      cases h
      refine .inr ?_
      simp [State.startCoro, State.log, State.scheduleToken, State.newToken, State.setCoro,
        State.newCoro, CoroData.started, CoroData.called, CoroData.complete]
  | sequential as o =>
      cases h
      refine .inr ?_
      simp [State.startCoro, State.log, State.scheduleToken, State.newToken, State.setCoro,
        State.newCoro, CoroData.started, CoroData.called, CoroData.complete]
  | async a =>
      unfold awaitBind at h
      split at h <;> cases h
  | comp c as =>
      unfold awaitBind at h
      split at h <;> cases h

theorem awaitReady_coroutine {b : Bool} {a : Awaitable P.User} {p : Handle}
    {tkn : Option TokenId} (h : awaitReady a s = (b, .coroutine p tkn, s')) :
    a = .coroutine p tkn ∧ s' = s ∧ b = (s.coros p.coro).complete := by
  cases a with
  | coroutine q t => cases h; exact ⟨rfl, rfl, rfl⟩
  | timeout | wait | wake | ref | call | sequential | async | comp => cases h

theorem target_coroutine {U : Type} {a : Awaitable U} {q : CoroId} (h : a.target = some q) :
    ∃ p tkn, a = .coroutine p tkn ∧ p.coro = q := by
  cases a with
  | coroutine p tkn => exact ⟨p, tkn, rfl, Option.some.inj h⟩
  | timeout | wait | wake | ref | call | sequential | async | comp => cases h

/-- Awaiting a handle binds a handle without a completion token. -/
theorem awaitBind_token {priority : Int} {a : Awaitable P.User} {p : Handle}
    {tkn : Option TokenId} (h : awaitBind priority (a.wrap s) s = (.ok (.coroutine p tkn), s')) :
    tkn = none := by
  cases ha : a.wrap s with
  | coroutine q t =>
      obtain rfl := wrap_coroutine ha
      rw [ha] at h
      unfold awaitBind at h
      split at h <;> cases h
      rfl
  | call f o | sequential as o => rw [ha] at h; cases h; rfl
  | timeout | wait | wake => rw [ha] at h; cases h
  | ref o | async b | comp c as =>
      rw [ha] at h
      unfold awaitBind at h
      split at h <;> cases h

/-- `await_suspend` of a handle does not throw. -/
theorem awaitSuspend_error_target {priority : Int} {cd : Option CoroId}
    {a a1 a2 : Awaitable P.User} {s1 s2 s3 : State P} {e : Exn P.Error}
    (hb : awaitBind priority (a.wrap s) s = (.ok a1, s1))
    (hr : awaitReady a1 s1 = (false, a2, s2))
    (hsus : awaitSuspend cd a2 s2 = (.error e, s3)) : a2.target = none := by
  cases htgt : a2.target with
  | none => rfl
  | some q =>
      obtain ⟨p, tkn, rfl, -⟩ := target_coroutine htgt
      obtain ⟨rfl, rfl, -⟩ := awaitReady_coroutine hr
      obtain rfl := awaitBind_token hb
      cases hsus

theorem Awaits.did {nn : Prop} {c : CoroId} {a : Awaitable P.User}
    {k : Result P.Value P.Error → P.Frame} (h : Awaits s c a k s') (hs : s.Tidy nn)
    (ha : nn → a.NonNeg) : Did nn s c (.await a k) s' := by
  have hw : nn → (a.wrap s).NonNeg := wrap_nonNeg hs ha
  have hb1 : ∀ n, Edits none n nn s (awaitBind (s.coros c).priority (a.wrap s) s).2 :=
    fun _ => awaitBind_edits _ _ s hs hw
  cases h with
  | unbound e s1 hb =>
      rw [hb] at hb1
      refine .result a k s1 _ _ rfl hb1 fun q hq => ?_
      obtain ⟨p, tkn, hp, rfl⟩ := target_coroutine hq
      obtain rfl := wrap_coroutine hp
      refine ⟨⟨p, hp, rfl⟩, .inl ?_⟩
      rw [hp] at hb
      unfold awaitBind State.bind_ at hb
      cases henv : (s.coros p.coro).env with
      | elsewhere =>
          rw [henv] at hb
          cases hb
          exact henv
      | unbound | here => rw [henv] at hb; cases hb
  | ready a1 a2 s1 s2 s3 r hb hr hres =>
      rw [hb] at hb1
      have he2 : ∀ n, Edits none n nn s s2 := fun n => by
        have h2 : Edits none n nn s1 (awaitReady a1 s1).2.2 := awaitReady_edits a1 s1
        rw [hr] at h2
        exact (hb1 n).trans h2
      have he3 : ∀ n, Edits none n nn s s3 := fun n => (he2 n).trans (awaitResume_edits_of hres)
      refine .result a k s3 _ _ rfl he3 fun q hq => ?_
      obtain ⟨p, tkn, rfl, rfl⟩ := target_coroutine hq
      obtain ⟨rfl, rfl, hcomp⟩ := awaitReady_coroutine hr
      have hp := (awaitBind_coroutine hb).resolve_right (by simp [← hcomp])
      obtain rfl := wrap_coroutine hp
      cases hres
      exact ⟨⟨p, hp, rfl⟩, .inr ⟨(awaitBind_bound hs hw hb).1, hcomp.symm, rfl⟩⟩
  | throws a1 a2 s1 s2 s3 e hb hr hsus =>
      have hthrow := Awaits.suspendThrows hb hr hsus
      have hnone := awaitSuspend_error_target hb hr hsus
      rw [hb] at hb1
      have he2 : ∀ n, Edits none n nn s s2 := fun n => by
        have h2 : Edits none n nn s1 (awaitReady a1 s1).2.2 := awaitReady_edits a1 s1
        rw [hr] at h2
        exact (hb1 n).trans h2
      obtain ⟨hbound, hn1⟩ := awaitBind_bound hs hw hb
      have hn2 := fun hnn => awaitReady_nonNeg s1 (hn1 hnn)
      have hs2 := awaitReady_suspendable hbound
      rw [hr] at hn2 hs2
      obtain ⟨he3, -⟩ := awaitSuspend_spec s2.current a2 s2 ((he2 0).tidy hs) (hs2 rfl) hn2
      have hsusp := awaitSuspend_suspends s2.current a2 s2
      rw [hsus] at he3 hsusp
      rw [(he2 0).ext.current] at he3
      rw [hnone]
      exact .throws a k s2 s3 e rfl hthrow he2 he3 hsusp
  | suspends a1 a2 a3 s1 s2 s3 hb hr hsus =>
      rw [hb] at hb1
      have he2 : ∀ n, Edits none n nn s s2 := fun n => by
        have h2 : Edits none n nn s1 (awaitReady a1 s1).2.2 := awaitReady_edits a1 s1
        rw [hr] at h2
        exact (hb1 n).trans h2
      obtain ⟨hbound, hn1⟩ := awaitBind_bound hs hw hb
      have hn2 := fun hnn => awaitReady_nonNeg s1 (hn1 hnn)
      have hs2 := awaitReady_suspendable hbound
      have hf2 := awaitReady_isRef s1 (awaitBind_isRef (wrap_isRef s a) hb)
      rw [hr] at hn2 hs2 hf2
      have hcur : s2.current = s.current := (he2 0).ext.current
      obtain ⟨he3, hc3⟩ := awaitSuspend_spec s2.current a2 s2 ((he2 0).tidy hs) (hs2 rfl) hn2
      have hsusp := awaitSuspend_suspends s2.current a2 s2
      rw [hsus] at he3 hsusp
      obtain ⟨htkn, hlt, hcr⟩ := hc3 a3 s3 hsus
      rw [awaitToken_eq s3 (awaitSuspend_isRef hf2 hsus)] at htkn
      rw [hcur] at he3 hcr
      refine .suspends a a3 k s2 s3 rfl he2 he3 hsusp htkn hlt hcr fun p t hp => ?_
      subst hp
      obtain ⟨rfl, ht, rfl⟩ := awaitSuspend_coroutine hsus
      obtain ⟨hh, hinc⟩ := hs2 rfl
      exact ⟨ht, hh, hinc, by rw [hcur]⟩

/-- Every action of a body is one of these. -/
theorem exec_did {nn : Prop} {c : CoroId} (hs : s.Tidy nn) (h : s.exec c = .ok s')
    (hn : ∀ f, (s.coros c).status = .running f → nn → (s.next f).NonNeg) :
    ∃ f, (s.coros c).status = .running f ∧ Did nn (s.ran f) c (s.next f) s' := by
  obtain ⟨f, hst, hact⟩ := exec_acted h
  have hs1 : (s.ran f).Tidy nn := ⟨hs.fresh, hs.object⟩
  have hn1 := hn f hst
  refine ⟨f, hst, ?_⟩
  generalize s.next f = act at hact hn1
  cases hact with
  | tau g => exact .goes _ _ g (fun _ => .refl) (.setStatus _ c _)
  | await a k => exact (coAwait_awaits (s.ran f) c a k).did hs1 hn1
  | create g o k =>
      have he : ∀ n, Edits none n nn (s.ran f) ((s.ran f).newCoro (.user (P.start g)) o) :=
        fun n => .single (.newCoro _ o (.user g) fun hnn => (hn1 hnn).1)
      exact .goes _ _ _ he (.setStatus _ c _)
  | declare p k =>
      have hg : Goes c (.running (k (s.ran f).nextObject)) [] (s.ran f)
          (((s.ran f).newObject p).setStatus c (.running (k (s.ran f).nextObject))) :=
        ⟨.trans (.of_coros rfl) (.setStatus ((s.ran f).newObject p) c _), rfl, rfl, fun o t ht => by
          by_cases ho : o = (s.ran f).nextObject
          · subst ho; simp [State.newObject, State.setStatus, State.setCoro] at ht
          · exact Function.update_of_ne ho _ _, .nil rfl⟩
      exact .goes _ _ _ (fun _ => .refl) hg
  | move o k p hp =>
      have hg : Goes c (.running (k (.ok p))) [] ((s.ran f).setObject o none)
          (((s.ran f).moveObject o).setStatus c (.running (k (.ok p)))) :=
        ⟨.trans (.of_coros rfl) (.setStatus ((s.ran f).moveObject o) c _), rfl, rfl,
          .of_eq rfl, .nil rfl⟩
      exact .goes _ _ _ (fun _ => .single (.setObject o none (by simp))) hg
  | moved o k r hr => exact .moved o k r rfl hr
  | bind p k s1 hr =>
      have he : ∀ n, Edits none n nn (s.ran f) ((s.ran f).detach p 0).2 := fun n =>
        detach_edits hs1.fresh p 0 hn1
      rw [hr] at he
      exact .goes _ _ _ he (.setStatus _ c _)
  | bindError p k e s1 hr =>
      have he : ∀ n, Edits none n nn (s.ran f) ((s.ran f).detach p 0).2 := fun n =>
        detach_edits hs1.fresh p 0 hn1
      rw [hr] at he
      exact .goes _ _ _ he (.setStatus _ c _)
  | returns v hv hnull => exact .returns v rfl hv hnull
  | fails e hnull => exact .fails e rfl hnull

/-! ### The end of a body -/

/-- The exception that the completion tokens of a process with outcome `r` carry. -/
def outcomeEptr {V E : Type} : Result V E → Option (Exn E)
  | .ok _ => none
  | .error e => some e

/-- The body of `c` has ended with `r`: its completion tokens are released. -/
structure Closes (c : CoroId) (r : Result P.Value P.Error) (s s' : State P) : Prop where
  now : s'.now = s.now
  nextToken : s'.nextToken = s.nextToken
  nextCoro : s'.nextCoro = s.nextCoro
  queue : s'.queue = s.queue ++ (s.coros c).completionTokens
  executed : s'.executed = s.executed
  events : s'.events = s.events
  handlers : s'.handlers = s.handlers
  objects : s'.objects = s.objects
  released : ∀ t ∈ (s.coros c).completionTokens, (s.tokens t).eptr = none →
    s'.tokens t = { s.tokens t with
      time := (s.tokens t).time + s.now, eptr := outcomeEptr r }
  token : ∀ t ∉ (s.coros c).completionTokens, s'.tokens t = s.tokens t
  coro : ∀ c' ≠ c, s'.coros c' = s.coros c'
  self : s'.coros c = { s.coros c with
    status := .finished, completionTokens := [], returnValue := (s'.coros c).returnValue }
  value : ∀ v, r = .ok v → s'.returnValue c = .ok v
  logs : s.Logs [.returned c r s.now] s'

theorem closes_returns {c : CoroId} {v : Option P.Value} (hv : v.isSome ≠ (s.coros c).void)
    (hnd : (s.coros c).completionTokens.Nodup) :
    Closes c (.ok (.ofReturn v)) s
      ((s.setCoro c { s.coros c with returnValue := v }).doReturn c (.ok (.ofReturn v))) := by
  have hself : (((s.setCoro c { s.coros c with returnValue := v }).doReturn c
      (.ok (.ofReturn v))).coros c) =
      { s.coros c with status := .finished, completionTokens := [], returnValue := v } := by
    rw [State.doReturn_eq]
    simp [State.setCoro]
  refine ⟨?_, ?_, ?_, ?_, ?_, ?_, ?_, ?_, fun t ht h0 => ?_, fun t ht => ?_, fun c' hc => ?_, ?_,
    fun w hw => ?_, ?_⟩
  · rw [State.doReturn_eq]; simp [State.setCoro]
  · rw [State.doReturn_eq]; simp [State.setCoro]
  · rw [State.doReturn_eq]; simp [State.setCoro]
  · rw [State.doReturn_eq]; simp [State.setCoro]
  · rw [State.doReturn_eq]; simp [State.setCoro]
  · rw [State.doReturn_eq]; simp [State.setCoro]
  · rw [State.doReturn_eq]; simp [State.setCoro]
  · rw [State.doReturn_eq]; simp [State.setCoro]
  · rw [State.doReturn_eq]
    have h1 := (State.releaseAll_of_mem (s.setCoro c { s.coros c with returnValue := v }) hnd
      ht).1
    simpa [State.setCoro, outcomeEptr, ← h0] using h1
  · rw [State.doReturn_eq]
    have h1 := (State.releaseAll_of_notMem (s.setCoro c { s.coros c with returnValue := v })
      ht).1
    simpa [State.setCoro] using h1
  · rw [State.doReturn_eq]; simp [State.setCoro, Function.update_of_ne hc]
  · rw [hself]
  · cases hw
    unfold State.returnValue
    rw [hself]
    cases v with
    | none => simp_all [Val.ofReturn]
    | some x => simp_all [Val.ofReturn]
  · unfold State.Logs
    rw [State.doReturn_eq]
    rfl

theorem closes_fails {c : CoroId} (e : Exn P.Error) (hnd : (s.coros c).completionTokens.Nodup) :
    Closes c (.error e) s ((s.propagateException c e).doReturn c (.error e)) := by
  have hco : (s.propagateException c e).coros = s.coros := by rw [State.propagateException_eq]
  have htok : ∀ t, (s.propagateException c e).tokens t =
      if t ∈ (s.coros c).completionTokens then { s.tokens t with eptr := some e }
      else s.tokens t := fun t => by rw [State.propagateException_eq]
  have hnow : (s.propagateException c e).now = s.now := by rw [State.propagateException_eq]
  refine ⟨?_, ?_, ?_, ?_, ?_, ?_, ?_, ?_, fun t ht h0 => ?_, fun t ht => ?_, fun c' hc => ?_, ?_,
    fun w hw => ?_, ?_⟩
  · rw [State.doReturn_eq, State.propagateException_eq]; simp
  · rw [State.doReturn_eq, State.propagateException_eq]; simp
  · rw [State.doReturn_eq, State.propagateException_eq]; simp
  · rw [State.doReturn_eq, State.propagateException_eq]; simp
  · rw [State.doReturn_eq, State.propagateException_eq]; simp
  · rw [State.doReturn_eq, State.propagateException_eq]; simp
  · rw [State.doReturn_eq, State.propagateException_eq]; simp
  · rw [State.doReturn_eq, State.propagateException_eq]; simp
  · rw [State.doReturn_eq, hco]
    have h1 := (State.releaseAll_of_mem (s.propagateException c e) hnd ht).1
    simpa only [htok, ht, if_true, hnow, outcomeEptr] using h1
  · rw [State.doReturn_eq, hco]
    have h1 := (State.releaseAll_of_notMem (s.propagateException c e) ht).1
    simpa only [htok, ht, if_false] using h1
  · rw [State.doReturn_eq, State.propagateException_eq]
    simp [Function.update_of_ne hc]
  · rw [State.doReturn_eq, State.propagateException_eq]
    simp
  · cases hw
  · unfold State.Logs
    rw [State.doReturn_eq, State.propagateException_eq]

/-! ### step, with its history -/

/-- `step()` has executed `t` without giving control to a body. -/
structure Passes (t : TokenId) (s s' : State P) : Prop where
  now : s'.now = (s.pop t).now
  nextToken : s'.nextToken = s.nextToken
  nextCoro : s'.nextCoro = s.nextCoro
  coros : s'.coros = s.coros
  events : s'.events = s.events
  objects : s'.objects = s.objects
  queue : ∀ u ∈ s.queue.erase t, u ∈ s'.queue
  executed : s'.executed = s.executed ++ [t]
  token : ∀ u, (∀ i, (s.handlers i).completionTkn ≠ some u) → s'.tokens u = s.tokens u
  eptr : ∀ u, (s'.tokens u).eptr = (s.tokens u).eptr
  handled : (s.tokens t).handler ≠ none ∨ (s.tokens t).coroData = none
  logs : ∃ os, s.Logs os s' ∧ ∀ o ∈ os, ∃ e n, o = .raised e n

/-- `step()` has executed `t`, and the body of `c` has control in state `f`. -/
structure Enters (t : TokenId) (c : CoroId) (f : P.Frame) (os : List (Obs P.Value P.Error))
    (s s' : State P) : Prop where
  now : s'.now = (s.pop t).now
  nextToken : s'.nextToken = s.nextToken
  nextCoro : s'.nextCoro = s.nextCoro
  coros : s'.coros = Function.update s.coros c { s.coros c with status := .running f }
  events : s'.events = s.events
  objects : s.Holding s'
  queue : s'.queue = s.queue.erase t
  executed : s'.executed = s.executed ++ [t]
  tokens : s'.tokens = s.tokens
  handlers : s'.handlers = s.handlers
  coroData : (s.tokens t).coroData = some c
  handler : (s.tokens t).handler = none
  logs : s.Logs os s'

mutual
theorem awaitResumeTag_objects (a : Awaitable P.User) (s : State P) :
    ∃ objects, (awaitResumeTag a s).2 = { s with objects := objects } ∧
      ∀ o t, (objects o).2 = some t → objects o = s.objects o := by
  cases a with
  | ref h =>
      refine ⟨_, rfl, fun o t ht => ?_⟩
      by_cases ho : o = h
      · subst ho; simp at ht
      · exact Function.update_of_ne ho _ _
  | comp c as => exact awaitResumeAll_objects as s
  | timeout | wait | wake | coroutine | call | sequential | async =>
      exact ⟨s.objects, rfl, fun _ _ _ => rfl⟩

theorem awaitResumeAll_objects (as : List (Awaitable P.User)) (s : State P) :
    ∃ objects, (awaitResumeAll as s).2 = { s with objects := objects } ∧
      ∀ o t, (objects o).2 = some t → objects o = s.objects o := by
  cases as with
  | nil => exact ⟨s.objects, rfl, fun _ _ _ => rfl⟩
  | cons a as =>
      obtain ⟨os, h1, hold⟩ := awaitResumeTag_objects a s
      unfold awaitResumeAll
      rcases hr : awaitResumeTag a s with ⟨_ | _, s1⟩ <;> rw [hr] at h1
      · exact ⟨os, h1, hold⟩
      · have h1 : s1 = { s with objects := os } := h1
        subst h1
        obtain ⟨os', h2, hold'⟩ := awaitResumeAll_objects as { s with objects := os }
        refine ⟨os', h2, fun o t ht => ?_⟩
        have h3 := hold' o t ht
        rw [h3] at ht ⊢
        exact hold o t ht
end

/-- `await_resume` changes only handle objects, which lose their completion tokens. -/
theorem awaitResume_objects (a : Awaitable P.User) (s : State P) :
    ∃ objects, (awaitResume a s).2 = { s with objects := objects } ∧
      ∀ o t, (objects o).2 = some t → objects o = s.objects o := by
  obtain ⟨os, h1, hold⟩ := awaitResumeTag_objects a s
  unfold awaitResume
  rcases hr : awaitResumeTag a s with ⟨_ | _, s1⟩ <;> rw [hr] at h1
  · exact ⟨os, h1, hold⟩
  · refine ⟨os, ?_, hold⟩
    simp only
    split <;> exact h1

/-- Every `step()` is one of these. -/
inductive Did.Step (t : TokenId) (s : State P) (s' : State P) : Prop where
  | passes (h : Passes t s s')
  | starts (c : CoroId) (f : P.Frame) (hst : (s.coros c).status = .initial f)
      (h : Enters t c f [.started c s'.now] s s')
  | resumes (c : CoroId) (a : Awaitable P.User) (k : Result P.Value P.Error → P.Frame)
      (r : Result P.Value P.Error) (hst : (s.coros c).status = .suspended a k)
      (hr : (awaitResume a { s.pop t with current := some c }).1 = r)
      (h : Enters t c (k r) [.resumed c t s'.now, .result c a.target r s'.now] s s')

theorem Stepped.did {t : TokenId} (h : Stepped s t s') : Did.Step t s s' := by
  cases h with
  | rethrow i e hh he =>
      exact .passes ⟨rfl, rfl, rfl, rfl, rfl, rfl, fun _ hu => hu, rfl, fun _ _ => rfl,
        fun _ => rfl, .inl (by simp [hh]), [.raised e (s.pop t).now], rfl, by simp⟩
  | fire i out hh he hout =>
      refine .passes ⟨rfl, rfl, rfl, rfl, rfl, rfl, fun u hu => List.mem_append_left _ hu, rfl,
        fun u hu => ?_, fun u => ?_, .inl (by simp [hh]), [], .nil rfl, by simp⟩
      rotate_left
      · by_cases hu : u = out
        · subst hu
          simp [State.fire, State.scheduleToken, State.setToken, State.setHandler, State.pop,
            State.outputToken]
        · simp [State.fire, State.scheduleToken, State.setToken, State.setHandler, State.pop,
            Function.update_of_ne hu]
      have hne : u ≠ out := by
        rintro rfl
        exact hu i hout
      simp [State.fire, State.scheduleToken, State.setToken, State.setHandler, State.pop,
        Function.update_of_ne hne]
  | count i hh =>
      exact .passes ⟨rfl, rfl, rfl, rfl, rfl, rfl, fun _ hu => hu, rfl, fun _ _ => rfl,
        fun _ => rfl, .inl (by simp [hh]), [], .nil rfl, by simp⟩
  | raise e hh hc =>
      exact .passes ⟨rfl, rfl, rfl, rfl, rfl, rfl, fun _ hu => hu, rfl, fun _ _ => rfl,
        fun _ => rfl, .inr hc, [.raised e (s.pop t).now], rfl, by simp⟩
  | skip hh hc =>
      exact .passes ⟨rfl, rfl, rfl, rfl, rfl, rfl, fun _ hu => hu, rfl, fun _ _ => rfl,
        fun _ => rfl, .inr hc, [], .nil rfl, by simp⟩
  | start c f hh hc hst =>
      exact .starts c f hst ⟨rfl, rfl, rfl, rfl, rfl, .of_eq rfl, rfl, rfl, rfl, rfl, hc, hh, rfl⟩
  | resume c a k r s1 hh hc hst hr =>
      obtain ⟨os, h1, hold⟩ := awaitResume_objects a { s.pop t with current := some c }
      rw [hr] at h1
      simp only at h1
      subst h1
      refine .resumes c a k r hst (by rw [hr]) ?_
      exact ⟨rfl, rfl, rfl, rfl, rfl, hold, rfl, rfl, rfl, rfl, hc, hh,
        List.append_assoc s.trace [.resumed c t (s.pop t).now]
          [.result c a.target r (s.pop t).now]⟩

end Cxxdes
