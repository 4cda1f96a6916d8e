-- SUMMARY: What one transition can do: the cases of step and of one action of a body, stated once.
import Cxxdes.Await.Suspend

/-!
# The cases of a transition

`Stepped s t s'` lists the ways `environment::step` can end with `t` on top,
`Acted s c act s'` the actions of a body, and `Ran nn s c act s'` their effect. Invariants are
proved by cases on these. `Quiet` are the changes that no token, handler or
event takes part in.
-/

namespace Cxxdes

variable {P : Program}

/-! ### Quiet changes -/

/-- Tokens, handlers, events and the clock are as before, and so is the part of
the processes that tokens are scheduled from. -/
structure Quiet (s s' : State P) : Prop where
  now : s'.now = s.now
  tokens : s'.tokens = s.tokens
  nextToken : s'.nextToken = s.nextToken
  queue : s'.queue = s.queue
  handlers : s'.handlers = s.handlers
  nextHandler : s'.nextHandler = s.nextHandler
  events : s'.events = s.events
  scheduled : s'.scheduled = s.scheduled
  executed : s'.executed = s.executed
  pushed : s'.pushed = s.pushed
  legal : s'.legal = s.legal
  completion : ∀ c, (s'.coros c).completionTokens = (s.coros c).completionTokens
  latency : ∀ c, (s'.coros c).latency = (s.coros c).latency

namespace Quiet

theorem trans {s s' s'' : State P} (h : Quiet s s') (h' : Quiet s' s'') : Quiet s s'' where
  now := h'.now.trans h.now
  tokens := h'.tokens.trans h.tokens
  nextToken := h'.nextToken.trans h.nextToken
  queue := h'.queue.trans h.queue
  handlers := h'.handlers.trans h.handlers
  nextHandler := h'.nextHandler.trans h.nextHandler
  events := h'.events.trans h.events
  scheduled := h'.scheduled.trans h.scheduled
  executed := h'.executed.trans h.executed
  pushed := h'.pushed.trans h.pushed
  legal := h'.legal.trans h.legal
  completion c := (h'.completion c).trans (h.completion c)
  latency c := (h'.latency c).trans (h.latency c)

/-- A change of the memory, the trace, the handle objects, or of the running
process only. -/
theorem of_coros {s s' : State P} (h : s' = { s with
      memory := s'.memory, trace := s'.trace, objects := s'.objects,
      nextObject := s'.nextObject, movedFrom := s'.movedFrom,
      current := s'.current, managed := s'.managed,
      nextCoro := s'.nextCoro }) :
    Quiet s s' := by
  rw [h]
  exact ⟨rfl, rfl, rfl, rfl, rfl, rfl, rfl, rfl, rfl, rfl, rfl, fun _ => rfl, fun _ => rfl⟩

/-- A change of a process that keeps its completion tokens and its latency. -/
theorem setCoro (s : State P) (c : CoroId) (d : CoroData P)
    (hc : d.completionTokens = (s.coros c).completionTokens)
    (hl : d.latency = (s.coros c).latency) : Quiet s (s.setCoro c d) := by
  refine ⟨rfl, rfl, rfl, rfl, rfl, rfl, rfl, rfl, rfl, rfl, rfl, ?_, ?_⟩ <;>
  · intro c'
    by_cases hcc : c' = c
    · subst hcc; simp [State.setCoro, hc, hl]
    · simp [State.setCoro, Function.update_of_ne hcc]

theorem setStatus (s : State P) (c : CoroId) (st : Status P) : Quiet s (s.setStatus c st) :=
  .setCoro s c _ rfl rfl

theorem deliver (s : State P) (c : CoroId) (target : Option CoroId)
    (k : Result P.Value P.Error → P.Frame) (r : Result P.Value P.Error) :
    Quiet s (s.deliver c target k r) :=
  (Quiet.setStatus s c _).trans (.of_coros rfl)

theorem suspend (s : State P) (c : CoroId) (a : Awaitable P.User)
    (k : Result P.Value P.Error → P.Frame) : Quiet s (s.suspend c a k) := by
  refine (Quiet.setStatus s c (.suspended a k)).trans ?_
  unfold State.suspend
  split <;> exact .of_coros rfl

end Quiet

/-! ### step -/

/-- `--remaining` in `custom_handler::invoke`. -/
def State.count (s : State P) (h : HandlerId) : State P :=
  s.setHandler h { s.handlers h with remaining := sizeDecr (s.handlers h).remaining }

/-- `custom_handler::invoke` schedules the output token `out` of `h`. -/
def State.fire (s : State P) (h : HandlerId) (t out : TokenId) : State P :=
  ((s.setHandler h
    { s.handlers h with remaining := sizeDecr (s.handlers h).remaining, completionTkn := none }
      ).setToken out (s.outputToken out t)).scheduleToken out

/-- The condition of handler `h` holds once one more child has reported. -/
def State.fires (s : State P) (h : HandlerId) : Bool :=
  (s.handlers h).cond.holds (s.handlers h).total (sizeDecr (s.handlers h).remaining)

/-- The ways `step()` ends with `t` on top. -/
inductive Stepped (s : State P) (t : TokenId) : State P → Prop where
  | rethrow (h : HandlerId) (e : Exn P.Error) (hh : (s.tokens t).handler = some h)
      (he : (s.tokens t).eptr = some e) :
      Stepped s t (((s.pop t).count h).log (.raised e (s.pop t).now))
  | fire (h : HandlerId) (out : TokenId) (hh : (s.tokens t).handler = some h)
      (he : (s.tokens t).eptr = none) (hout : (s.handlers h).completionTkn = some out)
      (hf : s.fires h = true) :
      Stepped s t ((s.pop t).fire h t out)
  | count (h : HandlerId) (hh : (s.tokens t).handler = some h)
      (he : (s.tokens t).eptr = none)
      (hf : (s.handlers h).completionTkn = none ∨ s.fires h = false) :
      Stepped s t ((s.pop t).count h)
  | start (c : CoroId) (f : P.Frame) (hh : (s.tokens t).handler = none)
      (hc : (s.tokens t).coroData = some c) (hst : (s.coros c).status = .initial f) :
      Stepped s t (({ s.pop t with current := some c }.setStatus c (.running f)).log
        (.started c (s.pop t).now))
  | resume (c : CoroId) (a : Awaitable P.User) (k : Result P.Value P.Error → P.Frame)
      (r : Result P.Value P.Error) (s1 : State P)
      (hh : (s.tokens t).handler = none) (hc : (s.tokens t).coroData = some c)
      (hst : (s.coros c).status = .suspended a k)
      (hr : awaitResume a { s.pop t with current := some c } = (r, s1)) :
      Stepped s t ((s1.log (.resumed c t (s.pop t).now)).deliver c a.target k r)
  | raise (e : Exn P.Error) (hh : (s.tokens t).handler = none)
      (hc : (s.tokens t).coroData = none) (he : (s.tokens t).eptr = some e) :
      Stepped s t ((s.pop t).log (.raised e (s.pop t).now))
  | skip (hh : (s.tokens t).handler = none) (hc : (s.tokens t).coroData = none)
      (he : (s.tokens t).eptr = none) : Stepped s t (s.pop t)

theorem step_stepped {s s' : State P} {t : TokenId} (h : s.step t = .ok s') :
    Stepped s t s' := by
  unfold State.step at h
  simp only at h
  split at h
  · next hd hh =>
      have hh : (s.tokens t).handler = some hd := hh
      cases he : (s.tokens t).eptr with
      | some e =>
          have : (s.pop t).invoke hd t = (some e, (s.pop t).count hd) := by
            simp [State.invoke, State.pop, he, State.count]
          rw [this] at h
          cases h
          exact .rethrow hd e hh he
      | none =>
          cases hout : (s.handlers hd).completionTkn with
          | none =>
              have : (s.pop t).invoke hd t = (none, (s.pop t).count hd) := by
                simp [State.invoke, State.pop, he, hout, State.count]
              rw [this] at h
              cases h
              exact .count hd hh he (.inl hout)
          | some out =>
              cases hf : s.fires hd with
              | true =>
                  have : (s.pop t).invoke hd t = (none, (s.pop t).fire hd t out) := by
                    unfold State.fires at hf
                    simp [State.invoke, State.pop, he, hout, State.fire, hf]
                  rw [this] at h
                  cases h
                  exact .fire hd out hh he hout hf
              | false =>
                  have : (s.pop t).invoke hd t = (none, (s.pop t).count hd) := by
                    unfold State.fires at hf
                    simp [State.invoke, State.pop, he, hout, State.count, hf]
                  rw [this] at h
                  cases h
                  exact .count hd hh he (.inr hf)
  · next hh =>
      split at h
      · next c hc =>
          unfold State.resume at h
          split at h
          · next f hst => cases h; exact .start c f hh hc hst
          · next a k hst =>
              cases h
              exact .resume c a k _ _ hh hc hst rfl
          · cases h
          · cases h
      · next hc =>
          split at h
          · next e he => cases h; exact .raise e hh hc he
          · next he => cases h; exact .skip hh hc he

/-! ### One action of a body -/

/-- No delay or latency of the action is negative. -/
def Action.NonNeg {U φ V E : Type} : Action U φ V E → Prop
  | .await a _ => a.NonNeg
  | .create _ o _ => 0 ≤ o.latency ∧ 0 ≤ o.retLatency
  | .declare p _ => 0 ≤ p.retLatency
  | .bind p _ => 0 ≤ p.retLatency
  | _ => True

/-- The body in state `f` has used the memory. -/
def State.ran (s : State P) (f : P.Frame) : State P :=
  { s with memory := (f.next s.memory s.now).1 }

/-- What the body in state `f` does next. -/
def State.next (s : State P) (f : P.Frame) : Action P.User P.Frame P.Value P.Error :=
  (f.next s.memory s.now).2

/-- The body of `c` runs on: besides its state, only the trace and the handle
objects may change. -/
structure Continues (nn : Prop) (c : CoroId) (s s' : State P) : Prop where
  quiet : Quiet s s'
  coros : ∃ f, s'.coros = Function.update s.coros c { s.coros c with status := .running f }
  current : s'.current = s.current
  managed : s'.managed = s.managed
  nextCoro : s'.nextCoro = s.nextCoro
  object : ∀ h, (s'.objects h).1 = (s.objects h).1 ∨ (nn → 0 ≤ (s'.objects h).1.retLatency)

theorem Continues.setStatus (nn : Prop) (s : State P) (c : CoroId) (f : P.Frame) :
    Continues nn c s (s.setStatus c (.running f)) where
  quiet := .setStatus s c _
  coros := ⟨f, rfl⟩
  current := rfl
  managed := rfl
  nextCoro := rfl
  object _ := .inl rfl

theorem Continues.deliver (nn : Prop) (s : State P) (c : CoroId) (target : Option CoroId)
    (k : Result P.Value P.Error → P.Frame) (r : Result P.Value P.Error) :
    Continues nn c s (s.deliver c target k r) where
  quiet := .deliver s c target k r
  coros := ⟨k r, rfl⟩
  current := rfl
  managed := rfl
  nextCoro := rfl
  object _ := .inl rfl

theorem Continues.declare {nn : Prop} (s : State P) (c : CoroId) (p : Handle) (f : P.Frame)
    (hp : nn → 0 ≤ p.retLatency) :
    Continues nn c s ((s.newObject p).setStatus c (.running f)) where
  quiet := (Quiet.of_coros rfl).trans (.setStatus (s.newObject p) c _)
  coros := ⟨f, rfl⟩
  current := rfl
  managed := rfl
  nextCoro := rfl
  object h := by
    by_cases hh : h = s.nextObject
    · subst hh; exact .inr (by simpa [State.newObject, State.setStatus, State.setCoro] using hp)
    · exact .inl (by simp [State.newObject, State.setStatus, State.setCoro,
        Function.update_of_ne hh])

/-- A moved handle object keeps its number. -/
theorem Continues.move (nn : Prop) (s : State P) (c : CoroId) (h : HandleId) (f : P.Frame) :
    Continues nn c (s.setObject h none) ((s.moveObject h).setStatus c (.running f)) where
  quiet := (Quiet.of_coros rfl).trans (.setStatus (s.moveObject h) c _)
  coros := ⟨f, rfl⟩
  current := rfl
  managed := rfl
  nextCoro := rfl
  object _ := .inl rfl

theorem Continues.moved (nn : Prop) (s : State P) (c : CoroId) (h : HandleId)
    (target : Option CoroId) (k : Result P.Value P.Error → P.Frame) (r : Result P.Value P.Error) :
    Continues nn c (s.setObject h none) ((s.moveObject h).deliver c target k r) where
  quiet := (Quiet.of_coros rfl).trans (.deliver (s.moveObject h) c target k r)
  coros := ⟨k r, rfl⟩
  current := rfl
  managed := rfl
  nextCoro := rfl
  object _ := .inl rfl

/-- The ways the action `act` of the body of `c` can end. -/
inductive Ran (nn : Prop) (s : State P) (c : CoroId)
    (act : Action P.User P.Frame P.Value P.Error) : State P → Prop where
  | continues (s1 s' : State P) (he : Edits none s.nextToken nn s s1)
      (hc : Continues nn c s1 s') : Ran nn s c act s'
  | throws (a : Awaitable P.User) (k : Result P.Value P.Error → P.Frame) (sm s1 s' : State P)
      (hact : act = .await a k) (hthrow : s.suspendThrows c a = true)
      (hm : Edits none s.nextToken nn s sm) (he : Edits s.current sm.nextToken nn sm s1)
      (hc : Continues nn c s1 s') : Ran nn s c act s'
  | suspends (a a' : Awaitable P.User) (k : Result P.Value P.Error → P.Frame) (sm s1 : State P)
      (hact : act = .await a k)
      (hm : Edits none s.nextToken nn s sm) (he : Edits s.current sm.nextToken nn sm s1)
      (href : a'.isRef = false) (htkn : a'.token = some sm.nextToken)
      (hlt : sm.nextToken < s1.nextToken)
      (hcr : Created s.current sm s1 (some sm.nextToken) none) :
      Ran nn s c act (s1.suspend c a' k)
  | returns (v : Option P.Value) (hact : act = .coReturn v)
      (hv : v.isSome ≠ (s.coros c).void) (hnull : s.nullCompletionToken c = false) :
      Ran nn s c act ((s.setCoro c { s.coros c with returnValue := v }).doReturn c
        (.ok (.ofReturn v)))
  | fails (e : Exn P.Error) (hact : act = .throw e) (hnull : s.nullCompletionToken c = false) :
      Ran nn s c act ((s.propagateException c e).doReturn c (.error e))

/-- The action `act` of the body of `c`, with the state it leads to. -/
inductive Acted (s : State P) (c : CoroId) :
    Action P.User P.Frame P.Value P.Error → State P → Prop where
  | tau (f : P.Frame) : Acted s c (.tau f) (s.setStatus c (.running f))
  | await (a : Awaitable P.User) (k : Result P.Value P.Error → P.Frame) :
      Acted s c (.await a k) (s.coAwait c a k)
  | create (f : P.User) (o : Options) (k : Handle → P.Frame) :
      Acted s c (.create f o k) ((s.newCoro (.user (P.start f)) o).setStatus c
        (.running (k ⟨s.nextCoro, o.retLatency, o.retPriority⟩)))
  | declare (p : Handle) (k : HandleId → P.Frame) :
      Acted s c (.declare p k) ((s.newObject p).setStatus c (.running (k s.nextObject)))
  | move (h : HandleId) (k : Except (Result P.Value P.Error) Handle → P.Frame) (p : Handle)
      (hp : s.takeObject h = .ok p) :
      Acted s c (.move h k) ((s.moveObject h).setStatus c (.running (k (.ok p))))
  | moved (h : HandleId) (k : Except (Result P.Value P.Error) Handle → P.Frame)
      (r : Result P.Value P.Error) (hr : s.takeObject h = .error r) :
      Acted s c (.move h k) ((s.moveObject h).deliver c (some (s.objects h).1.coro)
        (fun r => k (.error r)) r)
  | bind (p : Handle) (k : Result P.Value P.Error → P.Frame) (s1 : State P)
      (h : s.detach p 0 = (.ok (), s1)) :
      Acted s c (.bind p k) (s1.setStatus c (.running (k (.ok .unit))))
  | bindError (p : Handle) (k : Result P.Value P.Error → P.Frame) (e : Exn P.Error)
      (s1 : State P) (h : s.detach p 0 = (.error e, s1)) :
      Acted s c (.bind p k) (s1.setStatus c (.running (k (.error e))))
  | returns (v : Option P.Value) (hv : v.isSome ≠ (s.coros c).void)
      (hnull : s.nullCompletionToken c = false) :
      Acted s c (.coReturn v) ((s.setCoro c { s.coros c with returnValue := v }).doReturn c
        (.ok (.ofReturn v)))
  | fails (e : Exn P.Error) (hnull : s.nullCompletionToken c = false) :
      Acted s c (.throw e) ((s.propagateException c e).doReturn c (.error e))

theorem exec_acted {s s' : State P} {c : CoroId} (h : s.exec c = .ok s') :
    ∃ f, (s.coros c).status = .running f ∧ Acted (s.ran f) c (s.next f) s' := by
  cases hst : (s.coros c).status with
  | running f =>
      refine ⟨f, rfl, ?_⟩
      rw [State.exec_of_running hst, ← State.ran, ← State.next] at h
      generalize s.next f = act at h ⊢
      cases act with
      | tau f' => cases h; exact .tau f'
      | await a k =>
          simp only at h
          split at h <;> cases h
          exact .await a k
      | create g o k => cases h; exact .create g o k
      | declare p k => cases h; exact .declare p k
      | move o k =>
          simp only at h
          split at h
          · cases h
          · unfold State.moveAwait at h
            split at h
            · next p hp => cases h; exact .move o k p hp
            · next r hr => cases h; exact .moved o k r hr
      | bind p k =>
          simp only at h
          rcases hr : (s.ran f).detach p 0 with ⟨e | u, s1⟩ <;> rw [hr] at h <;> cases h
          · exact .bindError p k e s1 hr
          · exact .bind p k s1 hr
      | coReturn v =>
          simp only [State.returnFrom] at h
          split at h
          · cases h
          · next hv =>
              split at h
              · cases h
              · next hnull => cases h; exact .returns v hv (by simpa using hnull)
      | throw e =>
          simp only [State.unhandledException] at h
          split at h
          · cases h
          · next hnull => cases h; exact .fails e (by simpa using hnull)
  | initial | suspended | finished =>
      unfold State.exec at h
      rw [hst] at h
      cases h

theorem State.exec_tau {s : State P} {c : CoroId} {f f' : P.Frame}
    (hst : (s.coros c).status = .running f) (hn : s.next f = .tau f') :
    s.exec c = .ok ((s.ran f).setStatus c (.running f')) := by
  have hn : (f.next s.memory s.now).2 = .tau f' := hn
  unfold State.exec
  simp only [hst, hn]
  rfl

theorem State.exec_await {s : State P} {c : CoroId} {f : P.Frame} {a : Awaitable P.User}
    {k : Result P.Value P.Error → P.Frame} (hst : (s.coros c).status = .running f)
    (hn : s.next f = .await a k) (hvalid : a.invalid s.movedFrom = false) :
    s.exec c = .ok ((s.ran f).coAwait c a k) := by
  have hn : (f.next s.memory s.now).2 = .await a k := hn
  unfold State.exec
  simp only [hst, hn, hvalid, Bool.false_eq_true, if_false]
  rfl

/-- A body does not await a handle that has been moved from. -/
theorem State.valid_of_exec {s s' : State P} {c : CoroId} {f : P.Frame} {a : Awaitable P.User}
    {k : Result P.Value P.Error → P.Frame} (hst : (s.coros c).status = .running f)
    (hn : s.next f = .await a k) (h : s.exec c = .ok s') : a.invalid s.movedFrom = false := by
  have hn : (f.next s.memory s.now).2 = .await a k := hn
  unfold State.exec at h
  simp only [hst, hn] at h
  split at h
  · cases h
  · next hvalid => exact Bool.eq_false_iff.mpr hvalid

/-- Only the end of a body dereferences the completion token of a unique process. -/
theorem exec_null {s : State P} {c : CoroId} (h : s.exec c = .error .nullCompletionToken) :
    (∃ f, (s.coros c).status = .running f) ∧ s.nullCompletionToken c = true := by
  unfold State.exec at h
  split at h
  · next f hst =>
      refine ⟨⟨f, hst⟩, ?_⟩
      simp only at h
      split at h
      · cases h
      · split at h <;> cases h
      · cases h
      · cases h
      · split at h <;> cases h
      · split at h <;> cases h
      · simp only [State.returnFrom] at h
        split at h
        · cases h
        · split at h
          · next hnull => exact hnull
          · cases h
      · simp only [State.unhandledException] at h
        split at h
        · next hnull => exact hnull
        · cases h
  · cases h

theorem Acted.ran {nn : Prop} {s s' : State P} {c : CoroId}
    {act : Action P.User P.Frame P.Value P.Error} (h : Acted s c act s') (hs : s.Tidy nn)
    (hn : nn → act.NonNeg) : Ran nn s c act s' := by
  cases h with
  | tau f => exact .continues _ _ .refl (.setStatus nn _ c f)
  | await a k =>
      rcases coAwait_cases hs c k hn with ⟨s1, tgt, r, he, hc⟩ |
        ⟨sm, s1, tgt, e, hm, he, hthrow, hc⟩ | ⟨sm, s1, a', hm, he, href, htkn, hlt, hcr, hc⟩
      · rw [hc]
        exact .continues s1 _ he (.deliver nn s1 c tgt k r)
      · rw [hc]
        exact .throws a k sm s1 _ rfl hthrow hm he (.deliver nn s1 c tgt k _)
      · rw [hc]
        exact .suspends a a' k sm s1 rfl hm he href htkn hlt hcr
  | create g o k =>
      exact .continues _ _ (.single (.newCoro (.user (P.start g)) o (.user g)
        fun hnn => (hn hnn).1))
        (.setStatus nn _ c _)
  | declare p k => exact .continues _ _ .refl (.declare _ c p _ hn)
  | move o k p hp => exact .continues _ _ (.single (.setObject o none (by simp))) (.move nn s c o _)
  | moved o k r hr =>
      exact .continues _ _ (.single (.setObject o none (by simp))) (.moved nn s c o _ _ r)
  | bind p k s1 hr =>
      have he : Edits none s.nextToken nn s _ := detach_edits hs.fresh p 0 hn
      rw [hr] at he
      exact .continues s1 _ he (.setStatus nn s1 c _)
  | bindError p k e s1 hr =>
      have he : Edits none s.nextToken nn s _ := detach_edits hs.fresh p 0 hn
      rw [hr] at he
      exact .continues s1 _ he (.setStatus nn s1 c _)
  | returns v hv hnull => exact .returns v rfl hv hnull
  | fails e hnull => exact .fails e rfl hnull

theorem exec_ran {nn : Prop} {s s' : State P} {c : CoroId} (hs : s.Tidy nn)
    (h : s.exec c = .ok s')
    (hn : ∀ f, (s.coros c).status = .running f → nn → (s.next f).NonNeg) :
    ∃ f, (s.coros c).status = .running f ∧ Ran nn (s.ran f) c (s.next f) s' := by
  obtain ⟨f, hst, hact⟩ := exec_acted h
  exact ⟨f, hst, hact.ran ⟨hs.fresh, hs.object⟩ (hn f hst)⟩

section
variable (s : State P) (c : CoroId) (a : Awaitable P.User) (k : Result P.Value P.Error → P.Frame)

theorem suspend_coros :
    (s.suspend c a k).coros =
      Function.update s.coros c { s.coros c with status := .suspended a k } := by
  unfold State.suspend
  split <;> rfl

theorem suspend_current : (s.suspend c a k).current = none := by
  unfold State.suspend
  split <;> rfl

theorem suspend_nextCoro : (s.suspend c a k).nextCoro = s.nextCoro := by
  unfold State.suspend
  split <;> rfl

theorem suspend_objects : (s.suspend c a k).objects = s.objects := by
  unfold State.suspend
  split <;> rfl

theorem suspend_managed : (s.suspend c a k).managed = s.managed := by
  unfold State.suspend
  split <;> rfl

end

/-! ### All transitions -/

/-- No delay or latency that the transition introduces is negative. -/
def Label.NonNeg (s : State P) : Label P → Prop
  | .call _ o => 0 ≤ o.latency ∧ 0 ≤ o.retLatency
  | .bind a => a.NonNeg
  | .exec c => ∀ f, (s.coros c).status = .running f → (s.next f).NonNeg
  | _ => True

theorem bind_call_edits {cd : Option CoroId} {n : TokenId} {nn : Prop} {s : State P}
    (hs : s.Tidy nn) (a : Awaitable P.User) (ha : nn → a.NonNeg) :
    Edits cd n nn s (s.bind a) := by
  have ht : Edits cd n nn s _ := toHandle_edits a ha
  exact ht.trans (detach_edits (ht.tidy hs).fresh _ 0 (toHandle_nonNeg hs a ha))

theorem Continues.tidy {nn : Prop} {c : CoroId} {s s' : State P} (h : Continues nn c s s')
    (hs : s.Tidy nn) (hc : c < s.nextCoro) : s'.Tidy nn where
  fresh := by
    obtain ⟨f, hco⟩ := h.coros
    intro c' hle
    rw [h.nextCoro] at hle
    rw [hco]
    exact hs.fresh.setCoro hc _ c' hle
  object hnn o := by
    rcases h.object o with heq | hge
    · rw [heq]; exact hs.object hnn o
    · exact hge hnn

/-- A process whose coroutine has a frame exists. -/
theorem State.Fresh.lt_of_status {s : State P} (hs : s.Fresh) {c : CoroId}
    (hc : (s.coros c).status ≠ .finished) : c < s.nextCoro := by
  refine Nat.lt_of_not_le fun hle => hc ?_
  rw [hs c hle]

theorem complete_of_status {s : State P} {c : CoroId} (h : (s.coros c).status ≠ .finished) :
    (s.coros c).complete = false := by
  unfold CoroData.complete
  split
  · next hst => exact absurd hst h
  · rfl

theorem Stepped.tidy {nn : Prop} {s s' : State P} {t : TokenId} (h : Stepped s t s')
    (hs : s.Tidy nn) : s'.Tidy nn := by
  have hp : (s.pop t).Tidy nn := ⟨hs.fresh, hs.object⟩
  cases h with
  | start c f hh hc hst =>
      have hlt := hs.fresh.lt_of_status (c := c) (by simp [hst])
      exact ⟨hp.fresh.setCoro hlt _, hs.object⟩
  | resume c a k r s1 hh hc hst hr =>
      have hlt := hs.fresh.lt_of_status (c := c) (by simp [hst])
      have he : Edits none 0 nn { s.pop t with current := some c } s1 := awaitResume_edits_of hr
      have ht := Edits.tidy he ⟨hs.fresh, hs.object⟩
      have hd := Continues.deliver nn (s1.log (.resumed c t (s.pop t).now)) c a.target k r
      exact hd.tidy ⟨ht.fresh, ht.object⟩ (Nat.lt_of_lt_of_le hlt he.ext.nextCoro)
  | rethrow | fire | count | raise | skip => exact ⟨hs.fresh, hs.object⟩

theorem Ran.tidy {nn : Prop} {s s' : State P} {c : CoroId}
    {act : Action P.User P.Frame P.Value P.Error} (h : Ran nn s c act s') (hs : s.Tidy nn)
    (hc : c < s.nextCoro) : s'.Tidy nn := by
  cases h with
  | continues s1 _ he hcont =>
      exact hcont.tidy (Edits.tidy he hs) (Nat.lt_of_lt_of_le hc he.ext.nextCoro)
  | throws a k sm s1 _ hact hthrow hm he hcont =>
      have hlt := Nat.lt_of_lt_of_le hc (hm.ext.trans (he.mono hm.ext.nextToken).ext).nextCoro
      exact hcont.tidy (Edits.tidy he (Edits.tidy hm hs)) hlt
  | suspends a a' k sm s1 hact hm he =>
      have hlt := Nat.lt_of_lt_of_le hc (hm.ext.trans (he.mono hm.ext.nextToken).ext).nextCoro
      have ht := Edits.tidy he (Edits.tidy hm hs)
      have hst : (s1.setStatus c (.suspended a' k)).Tidy nn := ⟨ht.fresh.setCoro hlt _, ht.object⟩
      unfold State.suspend
      split
      · exact ⟨hst.fresh, hst.object⟩
      · exact ⟨hst.fresh, hst.object⟩
  | returns v =>
      rw [State.doReturn_eq]
      refine ⟨?_, by simpa [State.setCoro] using hs.object⟩
      have hf := (hs.fresh.setCoro hc { s.coros c with returnValue := v }).setCoro hc
        { s.coros c with returnValue := v, completionTokens := [], status := .finished }
      intro c' hle
      have hle' : s.nextCoro ≤ c' := by simpa [State.setCoro] using hle
      simpa [State.setCoro] using hf c' hle'
  | fails e =>
      rw [State.doReturn_eq, State.propagateException_eq]
      refine ⟨?_, by simpa using hs.object⟩
      have hf := hs.fresh.setCoro hc
        { s.coros c with completionTokens := [], status := .finished }
      intro c' hle
      have hle' : s.nextCoro ≤ c' := by simpa using hle
      exact hf c' hle'

theorem Step.tidy {nn : Prop} {s s' : State P} {l : Label P} (h : Step s l s')
    (hn : nn → l.NonNeg s) (hs : s.Tidy nn) : s'.Tidy nn := by
  cases h with
  | call f o =>
      have he : Edit none 0 nn s (s.newCoro (.user (P.start f)) o) :=
        .newCoro _ o (.user f) fun hnn => (hn hnn).1
      exact Edits.tidy (.single he) hs
  | bind a =>
      have he : Edits none 0 nn s (s.bind a) := bind_call_edits hs a hn
      exact Edits.tidy he hs
  | elsewhere c henv => exact ⟨hs.fresh.setCoro (hs.fresh.lt (by simp [henv])) _, hs.object⟩
  | step t _ htop h => exact (step_stepped h).tidy hs
  | advance deadline h => exact ⟨hs.fresh, hs.object⟩
  | exec c _ h =>
      obtain ⟨f, hst, hran⟩ := exec_ran hs h fun f hf hnn => hn hnn f hf
      exact hran.tidy ⟨hs.fresh, hs.object⟩ (hs.fresh.lt_of_status (by simp [hst]))
  | reset hcur h =>
      unfold State.reset
      rw [State.destroyAll_eq]
      refine ⟨?_, hs.object⟩
      intro c hle
      have hc : s.coros c = { env := .elsewhere } := hs.fresh c hle
      simp only [hc]
      split <;> rfl

/-- No transition overflows. -/
theorem Step.fits {s s' : State P} {l : Label P} (hstep : Step s l s') (hs : s.Fits) : s'.Fits := by
  cases hstep with
  | bind _ _ hfits | step _ _ _ _ hfits | exec _ _ _ hfits => exact hfits
  | call | elsewhere | advance => exact hs
  | reset =>
      unfold State.Fits State.reset
      rw [State.destroyAll_eq]
      exact hs

theorem Reachable.fits {C : State P → Label P → Prop} {s : State P} (h : Reachable C s) :
    s.Fits := by
  obtain ⟨m, h⟩ := h
  exact h.invariant (I := State.Fits) (fun _ _ _ hs _ hstep => hstep.fits hs)
    fun t ht => absurd ht (Nat.not_lt_zero t)

end Cxxdes
