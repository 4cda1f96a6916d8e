-- SUMMARY: Awaiting that leaves one event alone: awaitables and frames that do not mention it.
import Cxxdes.Run.Frames

/-!
# Outside of an event

An awaitable that does not mention the event `e` neither wakes `e` nor waits on it.
The coroutines that it starts do not mention `e` either.
-/

namespace Cxxdes

variable {P : Program} {e : EventId} {s s' s'' : State P}

mutual
/-- The awaitable, and every awaitable it holds, is neither a wait on `e` nor a wake. -/
def Awaitable.Avoids {U : Type} (e : EventId) : Awaitable U → Prop
  | .wait evt _ _ _ => evt ≠ e
  | .wake evt => evt ≠ e
  | .sequential as _ => AvoidsAll e as
  | .async a => a.Avoids e
  | .comp _ as => AvoidsAll e as
  | _ => True

def Awaitable.AvoidsAll {U : Type} (e : EventId) : List (Awaitable U) → Prop
  | [] => True
  | a :: as => a.Avoids e ∧ AvoidsAll e as
end

def Frame.Avoids {U B E : Type} (e : EventId) : Frame U B E → Prop
  | .seq as => Awaitable.AvoidsAll e as
  | _ => True

/-- The action awaits nothing that mentions `e`. -/
def Action.Avoids {U φ V E : Type} (e : EventId) : Action U φ V E → Prop
  | .await a _ => a.Avoids e
  | _ => True

/-- What has been done to `s` did not touch the event `e`, and it has started no
coroutine that may. -/
structure Outside (e : EventId) (s s' : State P) : Prop where
  events : s'.events e = s.events e
  frames : s.Frames (Frame.Avoids e) → s'.Frames (Frame.Avoids e)

namespace Outside

theorem refl (s : State P) : Outside e s s := ⟨rfl, id⟩

theorem trans (h : Outside e s s') (h' : Outside e s' s'') : Outside e s s'' :=
  ⟨h'.events.trans h.events, fun hf => h'.frames (h.frames hf)⟩

/-- An update that changes neither the event nor the bodies. -/
theorem of_coros (hev : s'.events e = s.events e) (hco : s'.coros = s.coros) :
    Outside e s s' :=
  ⟨hev, fun h => h.congr hco⟩

theorem update {c : CoroId} {d : CoroData P} (hev : s'.events e = s.events e)
    (hd : s.Frames (Frame.Avoids e) → d.status.All (Frame.Avoids e))
    (hco : s'.coros = Function.update s.coros c d) : Outside e s s' :=
  ⟨hev, fun h => h.update (hd h) hco⟩

/-! ### Primitive updates -/

theorem newCoro {f : P.Frame} (hf : f.Avoids e) (o : Options) : Outside e s (s.newCoro f o) :=
  .update (d := .called f o) rfl (fun _ => hf) rfl

theorem startCoro (c : CoroId) (priority : Int) : Outside e s (s.startCoro c priority) :=
  .update (d := (s.coros c).started s.current
    (resolvePriority (s.coros c).priority priority) s.nextToken) rfl (fun h => h c) rfl

theorem newCompletion (p : Handle) (cd : Option CoroId) : Outside e s (s.newCompletion p cd) :=
  .update (d := (s.coros p.coro).completionToken s.nextToken) rfl (fun h => h p.coro) rfl

theorem newWaiter {evt : EventId} (hne : evt ≠ e) (tkn : Token P.Error) :
    Outside e s (s.newWaiter evt tkn) :=
  .of_coros (Function.update_of_ne hne.symm _ _) rfl

theorem wake {evt : EventId} (hne : evt ≠ e) : Outside e s (s.wake evt) := by
  refine .of_coros ?_ (by simp [State.wake])
  simp [State.wake, Function.update_of_ne hne.symm]

theorem bind_ (c : CoroId) (priority : Int) : Outside e s (s.bind_ c priority).2 := by
  unfold State.bind_
  split
  · exact .refl s
  · exact .refl s
  · exact .startCoro c priority

theorem suspendHandle (p : Handle) (tkn : Option TokenId) (cd : Option CoroId) :
    Outside e s (s.suspendHandle p tkn cd).2 := by
  cases tkn with
  | some t => exact .refl s
  | none => exact .newCompletion p cd

theorem detach (p : Handle) (priority : Int) : Outside e s (s.detach p priority).2 := by
  have h1 : Outside e s (s.bind_ p.coro priority).2 := .bind_ p.coro priority
  unfold State.detach
  rcases hr : s.bind_ p.coro priority with ⟨_ | _, s1⟩ <;> rw [hr] at h1
  · exact h1
  · simp only
    split
    · exact h1
    · exact h1.trans (.newCompletion p none)

theorem installOn (h : HandlerId) (t : Option TokenId) : Outside e s (installOn s h t) := by
  cases t <;> exact .of_coros rfl rfl

end Outside

/-! ### Awaitables -/

theorem toHandle_outside {a : Awaitable P.User} (ha : a.Avoids e) (s : State P) :
    Outside e s (toHandle s a).2 := by
  cases a with
  | coroutine | ref => exact .refl s
  | call f o => exact .newCoro (f := .user (P.start f)) trivial o
  | sequential as o => exact .newCoro (f := .seq as) ha o
  | timeout | wait | wake | async | comp =>
      exact .newCoro (f := .seq [_]) ⟨ha, trivial⟩ {}

mutual
theorem awaitBind_outside (priority : Int) (a : Awaitable P.User) (ha : a.Avoids e)
    (s : State P) : Outside e s (awaitBind priority a s).2 := by
  cases a with
  | timeout | wait | wake => exact .refl s
  | coroutine p tkn =>
      have h1 : Outside e s (s.bind_ p.coro priority).2 := .bind_ p.coro priority
      unfold awaitBind
      rcases hr : s.bind_ p.coro priority with ⟨_ | _, s1⟩ <;> rw [hr] at h1 <;> exact h1
  | ref h =>
      have h1 : Outside e s (s.bind_ (s.objects h).1.coro priority).2 := .bind_ _ priority
      unfold awaitBind
      rcases hr : s.bind_ (s.objects h).1.coro priority with ⟨_ | _, s1⟩ <;> rw [hr] at h1 <;>
        exact h1
  | call f o =>
      have h1 : Outside e s (s.newCoro (.user (P.start f)) o) :=
        .newCoro (f := .user (P.start f)) trivial o
      exact h1.trans (.startCoro s.nextCoro priority)
  | sequential as o =>
      have h1 : Outside e s (s.newCoro (.seq as) o) := .newCoro (f := .seq as) ha o
      exact h1.trans (.startCoro s.nextCoro priority)
  | async a =>
      have h1 : Outside e s ((toHandle s a).2.detach (toHandle s a).1 priority).2 :=
        (toHandle_outside (a := a) ha s).trans (.detach _ priority)
      unfold awaitBind
      rcases hr : (toHandle s a).2.detach (toHandle s a).1 priority with ⟨_ | _, s1⟩ <;>
        rw [hr] at h1 <;> exact h1
  | comp c as =>
      have h1 := awaitBindAll_outside (resolvePriority c.priority priority) as ha s
      unfold awaitBind
      rcases hr : awaitBindAll (resolvePriority c.priority priority) as s with ⟨_ | _, s1⟩ <;>
        rw [hr] at h1 <;> exact h1

theorem awaitBindAll_outside (priority : Int) (as : List (Awaitable P.User))
    (ha : Awaitable.AvoidsAll e as) (s : State P) :
    Outside e s (awaitBindAll priority as s).2 := by
  cases as with
  | nil => exact .refl s
  | cons a as =>
      have h1 := awaitBind_outside priority a ha.1 s
      unfold awaitBindAll
      rcases hr : awaitBind priority a s with ⟨_ | _, s1⟩ <;> rw [hr] at h1
      · exact h1
      · have h2 := h1.trans (awaitBindAll_outside priority as ha.2 s1)
        simp only
        rcases hr2 : awaitBindAll priority as s1 with ⟨_ | _, s2⟩ <;> rw [hr2] at h2 <;> exact h2
end

mutual
theorem awaitBind_avoids {priority : Int} {a a' : Awaitable P.User} {s s' : State P}
    (ha : a.Avoids e) (h : awaitBind priority a s = (.ok a', s')) : a'.Avoids e := by
  cases a with
  | timeout | wait | wake => cases h; exact ha
  | call | sequential => cases h; trivial
  | coroutine p tkn =>
      unfold awaitBind at h
      split at h <;> cases h
      trivial
  | ref o =>
      unfold awaitBind at h
      split at h <;> cases h
      trivial
  | async a =>
      unfold awaitBind at h
      split at h <;> cases h
      trivial
  | comp c as =>
      unfold awaitBind at h
      split at h
      · cases h
      · next as' s1 hr =>
          cases h
          exact awaitBindAll_avoids ha hr

theorem awaitBindAll_avoids {priority : Int} {as as' : List (Awaitable P.User)}
    {s s' : State P} (ha : Awaitable.AvoidsAll e as)
    (h : awaitBindAll priority as s = (.ok as', s')) : Awaitable.AvoidsAll e as' := by
  cases as with
  | nil => cases h; trivial
  | cons a as =>
      unfold awaitBindAll at h
      split at h
      · cases h
      · next a1 s1 hr =>
          split at h
          · cases h
          · next as1 s2 hrs =>
              cases h
              exact ⟨awaitBind_avoids ha.1 hr, awaitBindAll_avoids ha.2 hrs⟩
end

mutual
theorem awaitReady_outside (a : Awaitable P.User) (ha : a.Avoids e) (s : State P) :
    (awaitReady a s).2.1.Avoids e ∧ Outside e s (awaitReady a s).2.2 := by
  cases a with
  | wake evt => exact ⟨ha, .wake ha⟩
  | comp c as => exact awaitReadyAll_outside as ha s
  | timeout | wait | coroutine | ref | call | sequential | async => exact ⟨ha, .refl s⟩

theorem awaitReadyAll_outside (as : List (Awaitable P.User)) (ha : Awaitable.AvoidsAll e as)
    (s : State P) :
    Awaitable.AvoidsAll e (awaitReadyAll as s).2.1 ∧ Outside e s (awaitReadyAll as s).2.2 := by
  cases as with
  | nil => exact ⟨trivial, .refl s⟩
  | cons a as =>
      obtain ⟨h1, h2⟩ := awaitReady_outside a ha.1 s
      obtain ⟨h3, h4⟩ := awaitReadyAll_outside as ha.2 (awaitReady a s).2.2
      exact ⟨⟨h1, h3⟩, h2.trans h4⟩
end

mutual
theorem awaitSuspend_outside (cd : Option CoroId) (a : Awaitable P.User) (ha : a.Avoids e)
    (s : State P) : Outside e s (awaitSuspend cd a s).2 := by
  cases a with
  | timeout => exact .of_coros rfl rfl
  | wait evt latency priority tkn => exact .newWaiter ha _
  | wake | call | sequential | async => exact .refl s
  | coroutine p tkn =>
      have h1 : Outside e s (s.suspendHandle p tkn cd).2 := .suspendHandle p tkn cd
      unfold awaitSuspend
      rcases hr : s.suspendHandle p tkn cd with ⟨_ | _, s1⟩ <;> rw [hr] at h1 <;> exact h1
  | ref h =>
      have h1 : Outside e s (s.suspendHandle (s.objects h).1 (s.objects h).2 cd).2 :=
        .suspendHandle _ _ cd
      unfold awaitSuspend
      rcases hr : s.suspendHandle (s.objects h).1 (s.objects h).2 cd with ⟨_ | _, s1⟩ <;>
        rw [hr] at h1
      · exact h1
      · exact h1.trans (.of_coros rfl rfl)
  | comp c as =>
      have h0 : Outside e s (s.newHandler c as.length cd) := .of_coros rfl rfl
      have h1 := h0.trans (awaitSuspendAll_outside cd s.nextHandler c.ready as ha _)
      unfold awaitSuspend
      rcases hr : awaitSuspendAll cd s.nextHandler c.ready as (s.newHandler c as.length cd)
        with ⟨_ | _, s1⟩ <;> rw [hr] at h1 <;> exact h1

theorem awaitSuspendAll_outside (cd : Option CoroId) (h : HandlerId) (ready : List Bool)
    (as : List (Awaitable P.User)) (ha : Awaitable.AvoidsAll e as) (s : State P) :
    Outside e s (awaitSuspendAll cd h ready as s).2 := by
  cases as with
  | nil => exact .refl s
  | cons a as =>
      unfold awaitSuspendAll
      split
      · have h1 := awaitSuspendAll_outside cd h ready.tail as ha.2 s
        rcases hr : awaitSuspendAll cd h ready.tail as s with ⟨_ | _, s1⟩ <;> rw [hr] at h1 <;>
          exact h1
      · have h1 := awaitSuspend_outside cd a ha.1 s
        rcases hr : awaitSuspend cd a s with ⟨_ | a1, s1⟩ <;> rw [hr] at h1
        · exact h1
        · have h2 := (h1.trans (.installOn h (awaitToken s1 a1))).trans
            (awaitSuspendAll_outside cd h ready.tail as ha.2 _)
          simp only
          rcases hr2 : awaitSuspendAll cd h ready.tail as (installOn s1 h (awaitToken s1 a1))
            with ⟨_ | _, s2⟩ <;> rw [hr2] at h2 <;> exact h2
end

mutual
theorem awaitResumeTag_outside (a : Awaitable P.User) (s : State P) :
    Outside e s (awaitResumeTag a s).2 := by
  cases a with
  | ref h => exact .of_coros rfl rfl
  | comp c as => exact awaitResumeAll_outside as s
  | timeout | wait | wake | coroutine | call | sequential | async => exact .refl s

theorem awaitResumeAll_outside (as : List (Awaitable P.User)) (s : State P) :
    Outside e s (awaitResumeAll as s).2 := by
  cases as with
  | nil => exact .refl s
  | cons a as =>
      have h1 : Outside e s _ := awaitResumeTag_outside a s
      unfold awaitResumeAll
      rcases hr : awaitResumeTag a s with ⟨_ | _, s1⟩ <;> rw [hr] at h1
      · exact h1
      · exact h1.trans (awaitResumeAll_outside as s1)
end

theorem awaitResume_outside (a : Awaitable P.User) (s : State P) :
    Outside e s (awaitResume a s).2 := by
  have h1 : Outside e s _ := awaitResumeTag_outside a s
  unfold awaitResume
  rcases hr : awaitResumeTag a s with ⟨_ | _, s1⟩ <;> rw [hr] at h1
  · exact h1
  · simp only
    split <;> exact h1

mutual
theorem copy_avoids {a : Awaitable P.User} (ha : a.Avoids e) : a.copy.Avoids e := by
  cases a with
  | comp c as => exact copyAll_avoids ha
  | timeout | wait | wake | coroutine | ref | call | sequential | async => exact ha

theorem copyAll_avoids {as : List (Awaitable P.User)} (ha : Awaitable.AvoidsAll e as) :
    Awaitable.AvoidsAll e (Awaitable.copyAll as) := by
  cases as with
  | nil => trivial
  | cons a as => exact ⟨copy_avoids ha.1, copyAll_avoids ha.2⟩
end

theorem wrap_avoids {a : Awaitable P.User} (ha : a.Avoids e) (s : State P) :
    (a.wrap s).Avoids e := by
  cases a with
  | ref h => trivial
  | comp c as => exact copyAll_avoids ha
  | timeout | wait | wake | coroutine | call | sequential | async => exact ha

/-! ### Transitions -/

theorem deliver_outside (s : State P) (c : CoroId) (target : Option CoroId)
    {k : Result P.Value P.Error → P.Frame} (r : Result P.Value P.Error)
    (hk : (k r).Avoids e) : Outside e s (s.deliver c target k r) :=
  .update (d := { s.coros c with status := .running (k r) }) rfl (fun _ => hk) rfl

theorem suspend_outside (s : State P) (c : CoroId) (a : Awaitable P.User)
    {k : Result P.Value P.Error → P.Frame} (hk : ∀ r, (k r).Avoids e) :
    Outside e s (s.suspend c a k) := by
  refine .update (d := { s.coros c with status := .suspended a k }) ?_ (fun _ => hk)
    (suspend_coros s c a k)
  unfold State.suspend
  split <;> rfl

theorem coAwait_outside (s : State P) (c : CoroId) {a : Awaitable P.User} (ha : a.Avoids e)
    {k : Result P.Value P.Error → P.Frame} (hk : ∀ r, (k r).Avoids e) :
    Outside e s (s.coAwait c a k) := by
  have hw := wrap_avoids ha s
  have h1 := awaitBind_outside (s.coros c).priority (a.wrap s) hw s
  unfold State.coAwait
  rcases hr1 : awaitBind (s.coros c).priority (a.wrap s) s with ⟨_ | a1, s1⟩ <;>
    rw [hr1] at h1 <;> simp only [hr1]
  · exact h1.trans (deliver_outside _ _ _ _ (hk _))
  · obtain ⟨ha2, h2⟩ := awaitReady_outside a1 (awaitBind_avoids hw hr1) s1
    rcases hr2 : awaitReady a1 s1 with ⟨_ | _, a2, s2⟩ <;> rw [hr2] at ha2 h2
    · have h3 := awaitSuspend_outside s2.current a2 ha2 s2
      simp only
      rcases hr3 : awaitSuspend s2.current a2 s2 with ⟨_ | a3, s3⟩ <;> rw [hr3] at h3
      · exact ((h1.trans h2).trans h3).trans (deliver_outside _ _ _ _ (hk _))
      · exact ((h1.trans h2).trans h3).trans (suspend_outside _ _ _ hk)
    · exact ((h1.trans h2).trans (awaitResume_outside a2 s2)).trans
        (deliver_outside _ _ _ _ (hk _))

/-- An action that does not mention `e`, of a body that goes on so. -/
theorem Acted.outside {c : CoroId} {act : Action P.User P.Frame P.Value P.Error}
    (h : Acted s c act s') (ha : act.Avoids e) (hk : act.All (Frame.Avoids e)) :
    Outside e s s' := by
  have hrun : ∀ {s1 : State P} {f : P.Frame}, Outside e s s1 → f.Avoids e →
      Outside e s (s1.setStatus c (.running f)) := by
    intro s1 f h1 hf
    exact h1.trans (.update (d := { s1.coros c with status := .running f }) rfl (fun _ => hf) rfl)
  have hret : ∀ {s1 : State P} (r : Result P.Value P.Error), Outside e s s1 →
      Outside e s (s1.doReturn c r) := by
    intro s1 r h1
    rw [State.doReturn_eq]
    let d := { s1.coros c with completionTokens := [], status := .finished }
    refine h1.trans (.update (d := d) ?_ (fun _ => trivial) rfl)
    simp
  cases h with
  | tau f => exact hrun (.refl s) hk
  | await a k => exact coAwait_outside s c ha hk
  | create f o k => exact hrun (.newCoro (f := .user (P.start f)) trivial o) (hk _)
  | declare p k =>
      have h1 : Outside e s (s.newObject p) := .of_coros rfl rfl
      exact hrun h1 (hk _)
  | move o k p =>
      have h1 : Outside e s (s.moveObject o) := .of_coros rfl rfl
      exact hrun h1 (hk _)
  | moved o k r =>
      have h1 : Outside e s (s.moveObject o) := .of_coros rfl rfl
      exact h1.trans (deliver_outside _ _ _ _ (hk _))
  | bind p k s1 hr =>
      have h1 : Outside e s (s.detach p 0).2 := .detach p 0
      rw [hr] at h1
      exact hrun h1 (hk _)
  | bindError p k x s1 hr =>
      have h1 : Outside e s (s.detach p 0).2 := .detach p 0
      rw [hr] at h1
      exact hrun h1 (hk _)
  | returns v =>
      exact hret _ (.update (d := { s.coros c with returnValue := v }) rfl (fun h => h c) rfl)
  | fails x =>
      refine hret _ ?_
      rw [State.propagateException_eq]
      exact .of_coros rfl rfl

end Cxxdes
