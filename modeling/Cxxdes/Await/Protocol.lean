-- SUMMARY: The phases of co_await: what awaitBind, awaitReady, awaitSuspend and awaitResume do to an environment, for every awaitable.
import Cxxdes.Await.Frame

/-!
# The await protocol

Each await function is a chain of edits. `awaitBind` leaves every process of the
awaitable bound (`Bound`), an `awaitReady` that answers "no" leaves it fit for
`awaitSuspend` (`Suspendable`), and the tokens that `awaitSuspend` creates are
described by `Suspended`.
-/

namespace Cxxdes

variable {P : Program}

/-! ### Processes that do not exist yet -/

/-- No process has been created beyond `nextCoro`. -/
def State.Fresh (s : State P) : Prop :=
  ∀ c, s.nextCoro ≤ c → s.coros c = { env := .elsewhere }

theorem State.Fresh.lt {s : State P} (hs : s.Fresh) {c : CoroId}
    (hc : (s.coros c).env ≠ .elsewhere) : c < s.nextCoro := by
  refine Nat.lt_of_not_le fun hle => hc ?_
  rw [hs c hle]

/-- Changing a process that exists. -/
theorem State.Fresh.setCoro {s : State P} (hs : s.Fresh) {c : CoroId} (hc : c < s.nextCoro)
    (d : CoroData P) : (s.setCoro c d).Fresh := by
  intro c' hle
  have hne : c' ≠ c := Nat.ne_of_gt (Nat.lt_of_lt_of_le hc hle)
  simpa [State.setCoro, Function.update_of_ne hne] using hs c' hle

theorem Edit.fresh {cd : Option CoroId} {n : TokenId} {nn : Prop} {s s' : State P}
    (h : Edit cd n nn s s') (hs : s.Fresh) : s'.Fresh := by
  cases h with
  | newCoro f o =>
      intro c hle
      have hlt : s.nextCoro < c := hle
      simpa [State.newCoro, Function.update_of_ne (Nat.ne_of_gt hlt)] using
        hs c (Nat.le_of_lt hlt)
  | startCoro c priority henv =>
      exact hs.setCoro (hs.lt (by simp [henv])) _
  | newCompletion p cd' hcd henv =>
      exact State.Fresh.setCoro (s := s.newToken _) hs (hs.lt (by simp [henv])) _
  | wake evt => intro c hle; simpa [State.wake] using hs c (by simpa [State.wake] using hle)
  | _ => exact hs

/-- What the await functions rely on: unused process numbers, and under `nn` no
negative latency in a handle object. -/
structure State.Tidy (nn : Prop) (s : State P) : Prop where
  fresh : s.Fresh
  object : nn → ∀ h, 0 ≤ (s.objects h).1.retLatency

theorem Edits.tidy {cd : Option CoroId} {n : TokenId} {nn : Prop} {s s' : State P}
    (h : Edits cd n nn s s') (hs : s.Tidy nn) : s'.Tidy nn where
  fresh := h.invariant (fun _ _ hs he => he.fresh hs) hs.fresh
  object hnn o := by rw [h.ext.object o]; exact hs.object hnn o

/-! ### Bound and suspendable awaitables -/

/-- Process `c` has been bound to this environment. -/
def State.BoundHere (s : State P) (c : CoroId) : Prop :=
  c < s.nextCoro ∧ (s.coros c).env = .here

theorem Ext.boundHere {n : TokenId} {s s' : State P} (h : Ext n s s') {c : CoroId}
    (hc : s.BoundHere c) : s'.BoundHere c := by
  refine ⟨Nat.lt_of_lt_of_le hc.1 h.nextCoro, ?_⟩
  exact ((h.coro c hc.1).bound (by simp [hc.2])).1.trans hc.2

theorem Ext.complete {n : TokenId} {s s' : State P} (h : Ext n s s') {c : CoroId}
    (hc : c < s.nextCoro) : (s'.coros c).complete = (s.coros c).complete := by
  simp only [CoroData.complete, (h.coro c hc).status]

mutual
/-- Every process the awaitable waits for has been bound. -/
def Bound (s : State P) : Awaitable P.User → Prop
  | .coroutine p _ => s.BoundHere p.coro
  | .ref h => s.BoundHere (s.objects h).1.coro
  | .call _ _ => False
  | .sequential _ _ => False
  | .comp _ as => BoundAll s as
  | _ => True

def BoundAll (s : State P) : List (Awaitable P.User) → Prop
  | [] => True
  | a :: as => Bound s a ∧ BoundAll s as
end

mutual
/-- Nothing the awaitable waits for has happened yet, except for the children of
a composition that are noted as ready. -/
def Suspendable (s : State P) : Awaitable P.User → Prop
  | .timeout relative time _ _ => relative = true ∨ s.now < time
  | .wait _ _ _ _ => True
  | .coroutine p _ => s.BoundHere p.coro ∧ (s.coros p.coro).complete = false
  | .ref h =>
    s.BoundHere (s.objects h).1.coro ∧ (s.coros (s.objects h).1.coro).complete = false
  | .comp c as => SuspendableAll s c.ready as
  | _ => False

def SuspendableAll (s : State P) (ready : List Bool) : List (Awaitable P.User) → Prop
  | [] => True
  | a :: as =>
    (ready.headD false = false → Suspendable s a) ∧ SuspendableAll s ready.tail as
end

mutual
theorem Ext.bound {n : TokenId} {s s' : State P} (h : Ext n s s') {a : Awaitable P.User}
    (ha : Bound s a) : Bound s' a := by
  cases a with
  | coroutine p tkn => exact h.boundHere ha
  | ref o => simp only [Bound, h.object o] at ha ⊢; exact h.boundHere ha
  | comp c as => exact h.boundAll ha
  | call => exact ha
  | sequential => exact ha
  | _ => trivial

theorem Ext.boundAll {n : TokenId} {s s' : State P} (h : Ext n s s')
    {as : List (Awaitable P.User)} (ha : BoundAll s as) : BoundAll s' as := by
  cases as with
  | nil => trivial
  | cons a as => exact ⟨h.bound ha.1, h.boundAll ha.2⟩
end

mutual
theorem Ext.suspendable {n : TokenId} {s s' : State P} (h : Ext n s s') {a : Awaitable P.User}
    (ha : Suspendable s a) : Suspendable s' a := by
  cases a with
  | timeout relative time => simpa only [Suspendable, h.now] using ha
  | wait => trivial
  | coroutine p tkn => exact ⟨h.boundHere ha.1, (h.complete ha.1.1).trans ha.2⟩
  | ref o =>
      simp only [Suspendable, h.object o] at ha ⊢
      exact ⟨h.boundHere ha.1, (h.complete ha.1.1).trans ha.2⟩
  | comp c as => exact h.suspendableAll ha
  | _ => exact ha

theorem Ext.suspendableAll {n : TokenId} {s s' : State P} (h : Ext n s s') {ready : List Bool}
    {as : List (Awaitable P.User)} (ha : SuspendableAll s ready as) :
    SuspendableAll s' ready as := by
  cases as with
  | nil => trivial
  | cons a as => exact ⟨fun hr => h.suspendable (ha.1 hr), h.suspendableAll ha.2⟩
end

/-! ### await_bind -/

section
variable {cd : Option CoroId} {n : TokenId} {nn : Prop} {s : State P}

theorem bind_edits (c : CoroId) (priority : Int) :
    Edits cd n nn s (s.bind_ c priority).2 := by
  unfold State.bind_
  split
  · exact .refl
  · exact .refl
  · next henv => exact .single (.startCoro c priority henv)

theorem bind_boundHere (hs : s.Fresh) (c : CoroId) (priority : Int)
    (hok : (s.bind_ c priority).1 = .ok ()) : (s.bind_ c priority).2.BoundHere c := by
  unfold State.bind_ at hok ⊢
  split at hok
  · cases hok
  · next henv => exact ⟨hs.lt (by simp [henv]), henv⟩
  · next henv =>
      refine ⟨hs.lt (by simp [henv]), ?_⟩
      simp [State.startCoro, State.log, State.scheduleToken, State.newToken, State.setCoro,
        CoroData.started]

/-- A call of a coroutine function that is bound at once. -/
theorem call_edits (f : P.Frame) (o : Options) (priority : Int) (hf : f.Starts)
    (hlat : nn → 0 ≤ o.latency) :
    Edits cd n nn s ((s.newCoro f o).startCoro s.nextCoro priority) := by
  refine .tail (.single (.newCoro f o hf hlat)) (.startCoro _ _ ?_)
  simp [State.newCoro, CoroData.called]

theorem call_boundHere (f : P.Frame) (o : Options) (priority : Int) :
    ((s.newCoro f o).startCoro s.nextCoro priority).BoundHere s.nextCoro := by
  refine ⟨Nat.lt_succ_self _, ?_⟩
  simp [State.startCoro, State.log, State.scheduleToken, State.newToken, State.setCoro,
    CoroData.started]

theorem toHandle_edits (a : Awaitable P.User) (ha : nn → a.NonNeg) :
    Edits cd n nn s (toHandle s a).2 := by
  unfold toHandle
  split
  · exact .refl
  · exact .refl
  · exact .single (.newCoro _ _ (.user _) fun h => (ha h).1)
  · exact .single (.newCoro _ _ (.seq _) fun h => (ha h).1)
  · exact .single (.newCoro _ _ (.seq _) fun _ => Int.le_refl _)

theorem toHandle_nonNeg (hs : s.Tidy nn) (a : Awaitable P.User) (ha : nn → a.NonNeg) :
    nn → 0 ≤ (toHandle s a).1.retLatency := by
  intro hnn
  unfold toHandle
  split
  · exact ha hnn
  · exact hs.object hnn _
  · exact (ha hnn).2
  · exact (ha hnn).2
  · exact Int.le_refl _

/-- `environment::bind` and `async` on a handle. -/
theorem detach_edits (hs : s.Fresh) (p : Handle) (priority : Int)
    (hlat : nn → 0 ≤ p.retLatency) : Edits cd n nn s (s.detach p priority).2 := by
  have hb : Edits cd n nn s _ := bind_edits p.coro priority
  have hh := bind_boundHere hs p.coro priority
  unfold State.detach
  rcases hr : s.bind_ p.coro priority with ⟨r, s1⟩
  rw [hr] at hb hh
  cases r with
  | error e => exact hb
  | ok _ =>
      simp only
      split
      · exact hb
      · next hinc =>
          exact .tail hb
            (.newCompletion p none (.inl rfl) (hh rfl).2 (by simpa using hinc) hlat)

mutual
theorem awaitBind_edits (priority : Int) (a : Awaitable P.User) (s : State P) (hs : s.Tidy nn)
    (ha : nn → a.NonNeg) : Edits cd n nn s (awaitBind priority a s).2 := by
  cases a with
  | timeout | wait | wake => exact .refl
  | coroutine p tkn =>
      have hb : Edits cd n nn s _ := bind_edits p.coro priority
      simp only [awaitBind]
      rcases hr : s.bind_ p.coro priority with ⟨_ | _, s1⟩ <;> rw [hr] at hb <;> exact hb
  | ref h =>
      have hb : Edits cd n nn s _ := bind_edits (s.objects h).1.coro priority
      simp only [awaitBind]
      rcases hr : s.bind_ (s.objects h).1.coro priority with ⟨_ | _, s1⟩ <;> rw [hr] at hb <;>
        exact hb
  | call f o => exact call_edits _ o priority (.user f) fun h => (ha h).1
  | sequential as o => exact call_edits _ o priority (.seq as) fun h => (ha h).1
  | async a =>
      have ht : Edits cd n nn s _ := toHandle_edits a ha
      have hd := ht.trans
        (detach_edits (ht.tidy hs).fresh _ priority (toHandle_nonNeg hs a ha))
      simp only [awaitBind]
      rcases hr : (toHandle s a).2.detach (toHandle s a).1 priority with ⟨_ | _, s1⟩ <;>
        rw [hr] at hd <;> exact hd
  | comp c as =>
      have h := awaitBindAll_edits (resolvePriority c.priority priority) as s hs
        fun h => (ha h).2
      simp only [awaitBind]
      rcases hr : awaitBindAll (resolvePriority c.priority priority) as s with ⟨_ | _, s1⟩ <;>
        rw [hr] at h <;> exact h

theorem awaitBindAll_edits (priority : Int) (as : List (Awaitable P.User)) (s : State P)
    (hs : s.Tidy nn) (ha : nn → Awaitable.NonNegAll as) :
    Edits cd n nn s (awaitBindAll priority as s).2 := by
  cases as with
  | nil => exact .refl
  | cons a as =>
      have h := awaitBind_edits priority a s hs fun h => (ha h).1
      simp only [awaitBindAll]
      rcases hr : awaitBind priority a s with ⟨_ | a', s1⟩ <;> rw [hr] at h
      · exact h
      · have h' := h.trans (awaitBindAll_edits priority as s1 (h.tidy hs) fun h => (ha h).2)
        rcases hr' : awaitBindAll priority as s1 with ⟨_ | as', s2⟩ <;> rw [hr'] at h' <;>
          simpa only [hr'] using h'
end

mutual
theorem awaitBind_bound {priority : Int} {a a' : Awaitable P.User} {s s' : State P}
    (hs : s.Tidy nn) (ha : nn → a.NonNeg) (hok : awaitBind priority a s = (.ok a', s')) :
    Bound s' a' ∧ (nn → a'.NonNeg) := by
  cases a with
  | timeout | wait | wake =>
      cases hok
      exact ⟨trivial, ha⟩
  | coroutine p tkn =>
      have hb := bind_boundHere hs.fresh p.coro priority
      simp only [awaitBind] at hok
      rcases hr : s.bind_ p.coro priority with ⟨_ | _, s1⟩ <;> rw [hr] at hb hok <;> cases hok
      exact ⟨hb rfl, ha⟩
  | ref h =>
      have hb := bind_boundHere hs.fresh (s.objects h).1.coro priority
      have he : Edits none 0 nn s _ := bind_edits (s.objects h).1.coro priority
      simp only [awaitBind] at hok
      rcases hr : s.bind_ (s.objects h).1.coro priority with ⟨_ | _, s1⟩ <;>
        rw [hr] at hb he hok <;> cases hok
      refine ⟨?_, ha⟩
      have ho : (s'.objects h).1 = (s.objects h).1 := he.ext.object h
      simp only [Bound, ho]
      exact hb rfl
  | call f o =>
      cases hok
      exact ⟨call_boundHere _ o priority, fun h => (ha h).2⟩
  | sequential as o =>
      cases hok
      exact ⟨call_boundHere _ o priority, fun h => (ha h).2⟩
  | async a =>
      have hl := toHandle_nonNeg hs a ha
      simp only [awaitBind] at hok
      rcases hr : (toHandle s a).2.detach (toHandle s a).1 priority with ⟨_ | _, s1⟩ <;>
        rw [hr] at hok <;> cases hok
      exact ⟨trivial, hl⟩
  | comp c as =>
      simp only [awaitBind] at hok
      rcases hr : awaitBindAll (resolvePriority c.priority priority) as s with ⟨_ | as', s1⟩ <;>
        rw [hr] at hok <;> cases hok
      have h := awaitBindAll_bound hs (fun h => (ha h).2) hr
      exact ⟨h.1, fun hn => ⟨(ha hn).1, h.2 hn⟩⟩

theorem awaitBindAll_bound {priority : Int} {as as' : List (Awaitable P.User)}
    {s s' : State P} (hs : s.Tidy nn) (ha : nn → Awaitable.NonNegAll as)
    (hok : awaitBindAll priority as s = (.ok as', s')) :
    BoundAll s' as' ∧ (nn → Awaitable.NonNegAll as') := by
  cases as with
  | nil => cases hok; exact ⟨trivial, fun _ => trivial⟩
  | cons a as =>
      simp only [awaitBindAll] at hok
      have he : Edits none 0 nn s _ := awaitBind_edits priority a s hs fun h => (ha h).1
      rcases hr : awaitBind priority a s with ⟨_ | a1, s1⟩ <;> rw [hr] at hok he
      · cases hok
      · have h := awaitBind_bound hs (fun h => (ha h).1) hr
        have he' : Edits none 0 nn s1 _ := awaitBindAll_edits priority as s1 (he.tidy hs)
          fun h => (ha h).2
        simp only at hok
        rcases hr' : awaitBindAll priority as s1 with ⟨_ | as1, s2⟩ <;> rw [hr'] at hok he' <;>
          cases hok
        have h' := awaitBindAll_bound (he.tidy hs) (fun h => (ha h).2) hr'
        exact ⟨⟨he'.ext.bound h.1, h'.1⟩, fun hn => ⟨h.2 hn, h'.2 hn⟩⟩
end

/-! ### await_ready -/

mutual
theorem awaitReady_edits (a : Awaitable P.User) (s : State P) :
    Edits cd n nn s (awaitReady a s).2.2 := by
  cases a with
  | wake evt => exact .single (.wake evt)
  | comp c as => exact awaitReadyAll_edits as s
  | _ => exact .refl

theorem awaitReadyAll_edits (as : List (Awaitable P.User)) (s : State P) :
    Edits cd n nn s (awaitReadyAll as s).2.2 := by
  cases as with
  | nil => exact .refl
  | cons a as => exact (awaitReady_edits a s).trans (awaitReadyAll_edits as _)
end

mutual
theorem awaitReady_nonNeg {a : Awaitable P.User} (s : State P) (ha : a.NonNeg) :
    (awaitReady a s).2.1.NonNeg := by
  cases a with
  | comp c as => exact ⟨ha.1, awaitReadyAll_nonNeg s ha.2⟩
  | _ => exact ha

theorem awaitReadyAll_nonNeg {as : List (Awaitable P.User)} (s : State P)
    (ha : Awaitable.NonNegAll as) : Awaitable.NonNegAll (awaitReadyAll as s).2.1 := by
  cases as with
  | nil => trivial
  | cons a as => exact ⟨awaitReady_nonNeg s ha.1, awaitReadyAll_nonNeg _ ha.2⟩
end

mutual
/-- Nothing completes and no time passes while a composition asks its children. -/
theorem awaitReady_suspendable {a : Awaitable P.User} {s : State P} (ha : Bound s a)
    (hr : (awaitReady a s).1 = false) :
    Suspendable (awaitReady a s).2.2 (awaitReady a s).2.1 := by
  cases a with
  | timeout relative time => simpa [awaitReady, Suspendable, Decidable.imp_iff_not_or] using hr
  | wait => trivial
  | coroutine p tkn => exact ⟨ha, hr⟩
  | ref h => exact ⟨ha, hr⟩
  | comp c as => exact awaitReadyAll_suspendable ha
  | wake => cases hr
  | async => cases hr
  | _ => cases ha

theorem awaitReadyAll_suspendable {as : List (Awaitable P.User)} {s : State P}
    (ha : BoundAll s as) :
    SuspendableAll (awaitReadyAll as s).2.2 (awaitReadyAll as s).1 (awaitReadyAll as s).2.1 := by
  cases as with
  | nil => trivial
  | cons a as =>
      have he : Edits none 0 False s _ := awaitReady_edits a s
      have he' : Edits none 0 False (awaitReady a s).2.2 _ := awaitReadyAll_edits as _
      exact ⟨fun hr => he'.ext.suspendable (awaitReady_suspendable ha.1 hr),
        awaitReadyAll_suspendable (he.ext.boundAll ha.2)⟩
end

/-! ### await_resume -/

mutual
theorem awaitResumeTag_edits (a : Awaitable P.User) (s : State P) :
    Edits cd n nn s (awaitResumeTag a s).2 := by
  cases a with
  | ref h => exact .single (.setObject h none (by simp))
  | comp c as => exact awaitResumeAll_edits as s
  | _ => exact .refl

theorem awaitResumeAll_edits (as : List (Awaitable P.User)) (s : State P) :
    Edits cd n nn s (awaitResumeAll as s).2 := by
  cases as with
  | nil => exact .refl
  | cons a as =>
      have h : Edits cd n nn s _ := awaitResumeTag_edits a s
      simp only [awaitResumeAll]
      rcases hr : awaitResumeTag a s with ⟨_ | _, s1⟩ <;> rw [hr] at h
      · exact h
      · exact h.trans (awaitResumeAll_edits as s1)
end

theorem awaitResume_edits (a : Awaitable P.User) (s : State P) :
    Edits cd n nn s (awaitResume a s).2 := by
  have h : Edits cd n nn s _ := awaitResumeTag_edits a s
  unfold awaitResume
  rcases hr : awaitResumeTag a s with ⟨_ | _, s1⟩ <;> rw [hr] at h
  · exact h
  · simp only
    split <;> exact h

theorem awaitResume_edits_of {a : Awaitable P.User} {s s' : State P}
    {r : Result P.Value P.Error} (hr : awaitResume a s = (r, s')) : Edits cd n nn s s' := by
  have h : Edits cd n nn s _ := awaitResume_edits a s
  rw [hr] at h
  exact h

end

end Cxxdes
