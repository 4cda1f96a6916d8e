-- SUMMARY: Which processes a co_await leaves without a completion token.
import Cxxdes.Await.Suspend

/-!
# Registered completion tokens

Binding starts a process, and `await_suspend` registers the token that reports
its end. A composition calls the second only for the children it has to wait
for, so a process is left without a token (an orphan) when the composition is
satisfied already, or when an exception comes in between. `Covered` excludes
exactly these awaits.
-/

namespace Cxxdes

variable {P : Program} {s s' : State P}

/-- A process that runs in this environment and has no completion token. -/
def State.Orphan (s : State P) (d : CoroId) : Prop :=
  (s.coros d).env = .here ∧ (s.coros d).complete = false ∧ (s.coros d).completionTokens = []

/-- A process that has not been bound yet, or does not exist yet. -/
def State.Unstarted (s : State P) (d : CoroId) : Prop :=
  (s.coros d).env = .unbound ∨ s.nextCoro ≤ d

/-! ### The processes of an awaitable -/

mutual
/-- The processes that the coroutine handles of an awaitable name. -/
def procs (s : State P) : Awaitable P.User → List CoroId
  | .coroutine p _ => [p.coro]
  | .ref h => [(s.objects h).1.coro]
  | .comp _ as => procsAll s as
  | _ => []

def procsAll (s : State P) : List (Awaitable P.User) → List CoroId
  | [] => []
  | a :: as => procs s a ++ procsAll s as
end

mutual
/-- The processes that an `async` of the awaitable starts: `async` registers a
completion token for its process itself. -/
def asyncs : Awaitable P.User → List CoroId
  | .async (.coroutine p _) => [p.coro]
  | .comp _ as => asyncsAll as
  | _ => []

def asyncsAll : List (Awaitable P.User) → List CoroId
  | [] => []
  | a :: as => asyncs a ++ asyncsAll as
end

mutual
/-- The children that were bound before an `await_bind` that throws. -/
def boundBeforeThrow (priority : Int) : Awaitable P.User → State P → List (Awaitable P.User)
  | .comp c as, s => boundBeforeThrowAll (resolvePriority c.priority priority) as s
  | _, _ => []

def boundBeforeThrowAll (priority : Int) :
    List (Awaitable P.User) → State P → List (Awaitable P.User)
  | [], _ => []
  | a :: as, s =>
    match awaitBind priority a s with
    | (.error _, _) => boundBeforeThrow priority a s
    | (.ok a, s) => a :: boundBeforeThrowAll priority as s
end

mutual
/-- The processes whose `await_suspend` is called by that of the awaitable, and does
not throw. -/
def reached (cd : Option CoroId) : Awaitable P.User → State P → List CoroId
  | .coroutine p none, _ => [p.coro]
  | .ref h, s => if (s.objects h).2.isNone then [(s.objects h).1.coro] else []
  | .comp c as, s => reachedAll cd s.nextHandler c.ready as (s.newHandler c as.length cd)
  | _, _ => []

def reachedAll (cd : Option CoroId) (handler : HandlerId) (ready : List Bool) :
    List (Awaitable P.User) → State P → List CoroId
  | [], _ => []
  | a :: as, s =>
    if ready.headD false then reachedAll cd handler ready.tail as s
    else match awaitSuspend cd a s with
      | (.error _, _) => reached cd a s
      | (.ok a', s') =>
        reached cd a s ++
          reachedAll cd handler ready.tail as (installOn s' handler (awaitToken s' a'))
end

/-- Every process that `co_await a` by `c` starts has its `await_suspend` called, or
is also started by an `async`: no `await_bind` throws after the process has been
bound, and neither the composition nor the child is ready at once. -/
def Covered (s : State P) (c : CoroId) (a : Awaitable P.User) : Prop :=
  match awaitBind (s.coros c).priority (a.wrap s) s with
  | (.error _, s1) =>
    ∀ d ∈ procsAll s1 (boundBeforeThrow (s.coros c).priority (a.wrap s) s), s.Unstarted d →
      d ∈ asyncsAll (boundBeforeThrow (s.coros c).priority (a.wrap s) s)
  | (.ok a1, s1) =>
    match awaitReady a1 s1 with
    | (true, a2, s2) => ∀ d ∈ procs s2 a2, s.Unstarted d → d ∈ asyncs a2
    | (false, a2, s2) => ∀ d ∈ procs s2 a2, s.Unstarted d →
        d ∈ asyncs a2 ∨ d ∈ reached s2.current a2 s2

/-! ### Frame facts -/

mutual
theorem procs_congr (h : ∀ o, (s'.objects o).1 = (s.objects o).1) (a : Awaitable P.User) :
    procs s' a = procs s a := by
  cases a with
  | ref o => simp only [procs, h o]
  | comp c as => exact procsAll_congr h as
  | _ => rfl

theorem procsAll_congr (h : ∀ o, (s'.objects o).1 = (s.objects o).1)
    (as : List (Awaitable P.User)) : procsAll s' as = procsAll s as := by
  cases as with
  | nil => rfl
  | cons a as => simp only [procsAll, procs_congr h a, procsAll_congr h as]
end

theorem State.Orphan.congr {d : CoroId} (h : s'.Orphan d) (hco : s'.coros = s.coros) :
    s.Orphan d := by
  unfold State.Orphan at h ⊢
  rwa [hco] at h

/-- Changing a process makes only that one an orphan. -/
theorem State.Orphan.setCoro {c d : CoroId} {e : CoroData P} (h : (s.setCoro c e).Orphan d) :
    s.Orphan d ∨ d = c := by
  by_cases hd : d = c
  · exact .inr hd
  · exact .inl (by simpa [State.Orphan, State.setCoro, Function.update_of_ne hd] using h)

/-- Starting a process can make only that one an orphan. -/
theorem startCoro_orphan {c d : CoroId} {priority : Int} (h : (s.startCoro c priority).Orphan d) :
    s.Orphan d ∨ d = c :=
  State.Orphan.setCoro (e := (s.coros c).started s.current
    (resolvePriority (s.coros c).priority priority) s.nextToken) h

theorem newCoro_orphan {d : CoroId} {f : P.Frame} {o : Options} (h : (s.newCoro f o).Orphan d) :
    s.Orphan d := by
  by_cases hd : d = s.nextCoro
  · subst hd
    simp [State.Orphan, State.newCoro, CoroData.called] at h
  · simpa [State.Orphan, State.newCoro, Function.update_of_ne hd] using h

theorem newCompletion_orphan {d : CoroId} {p : Handle} {cd : Option CoroId}
    (h : (s.newCompletion p cd).Orphan d) : s.Orphan d ∧ d ≠ p.coro := by
  by_cases hd : d = p.coro
  · subst hd
    have hnil := h.2.2
    simp only [State.newCompletion, State.newToken, State.setCoro, Function.update_self,
      CoroData.completionToken] at hnil
    split at hnil <;> simp at hnil
  · exact ⟨by simpa [State.Orphan, State.newCompletion, State.newToken, State.setCoro,
      Function.update_of_ne hd] using h, hd⟩

/-! ### Edits -/

theorem Ext.unstarted {n : TokenId} (h : Ext n s s') {d : CoroId} (hd : s'.Unstarted d) :
    s.Unstarted d := by
  rcases Nat.lt_or_ge d s.nextCoro with hlt | hge
  · refine .inl (Decidable.byContradiction fun hne => ?_)
    rcases hd with henv | hle
    · exact hne (((h.coro d hlt).bound hne).1 ▸ henv)
    · exact absurd (Nat.lt_of_lt_of_le hlt h.nextCoro) (Nat.not_lt.mpr hle)
  · exact .inr hge

section
variable {cd : Option CoroId} {n : TokenId} {nn : Prop}

/-- Only binding makes an orphan. -/
theorem Edit.orphan (he : Edit cd n nn s s') {d : CoroId} (h : s'.Orphan d) :
    s.Orphan d ∨ s.Unstarted d := by
  cases he with
  | newCoro f o => exact .inl (newCoro_orphan h)
  | startCoro c priority henv =>
      rcases startCoro_orphan h with h | rfl
      · exact .inl h
      · exact .inr (.inl henv)
  | newCompletion p cd' => exact .inl (newCompletion_orphan h).1
  | wake evt => exact .inl (h.congr (by simp [State.wake]))
  | timeout | newWaiter | newHandler | install | setObject => exact .inl h

theorem Edits.orphan (he : Edits cd n nn s s') {d : CoroId} (h : s'.Orphan d) :
    s.Orphan d ∨ s.Unstarted d := by
  induction he with
  | refl => exact .inl h
  | tail he0 he ih =>
      rcases he.orphan h with h1 | h1
      · exact ih h1
      · exact .inr ((Edits.ext he0).unstarted h1)

end

/-! ### await_bind -/

theorem bind_orphan (c : CoroId) (priority : Int) {d : CoroId}
    (h : (s.bind_ c priority).2.Orphan d) :
    s.Orphan d ∨ ((s.bind_ c priority).1 = .ok () ∧ d = c) := by
  unfold State.bind_ at h ⊢
  split
  · next henv => rw [henv] at h; exact .inl h
  · next henv => rw [henv] at h; exact .inl h
  · next henv => rw [henv] at h; exact (startCoro_orphan h).imp id fun hd => ⟨rfl, hd⟩

/-- A detached process has the token that names no waiter. -/
theorem detach_orphan (p : Handle) (priority : Int) {d : CoroId}
    (h : (s.detach p priority).2.Orphan d) : s.Orphan d := by
  have hb : ∀ r s1, s.bind_ p.coro priority = (r, s1) → s1.Orphan d → s.Orphan d ∨ d = p.coro := by
    intro r s1 hr h1
    have h2 := bind_orphan (s := s) (d := d) p.coro priority
    rw [hr] at h2
    exact (h2 h1).imp id And.right
  unfold State.detach at h
  rcases hr : s.bind_ p.coro priority with ⟨_ | _, s1⟩ <;> rw [hr] at h
  · have h2 := bind_orphan (s := s) (d := d) p.coro priority
    rw [hr] at h2
    exact (h2 h).resolve_right fun hd => by cases hd.1
  · simp only at h
    split at h
    · next hcomp =>
        refine (hb _ s1 hr h).resolve_right fun hd => ?_
        have hc := h.2.1
        rw [hd, hcomp] at hc
        cases hc
    · obtain ⟨h1, hne⟩ := newCompletion_orphan h
      exact (hb _ s1 hr h1).resolve_right hne

/-- A process that `async` has started is registered. -/
theorem detach_registered (hs : s.Fresh) {p : Handle} {priority : Int} {u : Unit}
    (hok : s.detach p priority = (.ok u, s')) :
    ¬ s'.Orphan p.coro ∧ ¬ s'.Unstarted p.coro := by
  have hh := bind_boundHere hs p.coro priority
  unfold State.detach at hok
  rcases hr : s.bind_ p.coro priority with ⟨_ | _, s1⟩ <;> rw [hr] at hok hh
  · cases hok
  · have hs1 : ¬ s1.Unstarted p.coro := by
      rintro (henv | hge)
      · rw [(hh rfl).2] at henv; cases henv
      · exact absurd (hh rfl).1 (Nat.not_lt.mpr hge)
    simp only at hok
    split at hok
    · next hcomp =>
        cases hok
        refine ⟨fun ho => ?_, hs1⟩
        rw [ho.2.1] at hcomp
        cases hcomp
    · next hinc =>
        cases hok
        have he : Edit none 0 False s1 (s1.newCompletion p none) :=
          .newCompletion p none (.inl rfl) (hh rfl).2 (by simpa using hinc) (fun h => h.elim)
        exact ⟨fun ho => (newCompletion_orphan ho).2 rfl, fun hu => hs1 (he.ext.unstarted hu)⟩

mutual
/-- After `await_bind`, the processes that an `async` started are registered. -/
theorem awaitBind_asyncs {priority : Int} {a a' : Awaitable P.User} {s s' : State P}
    {d : CoroId} (hs : s.Tidy False) (hok : awaitBind priority a s = (.ok a', s'))
    (hd : d ∈ asyncs a') : ¬ s'.Orphan d ∧ ¬ s'.Unstarted d := by
  cases a with
  | timeout | wait | wake | call | sequential => cases hok; cases hd
  | coroutine p tkn =>
      simp only [awaitBind] at hok
      rcases hr : s.bind_ p.coro priority with ⟨_ | _, s1⟩ <;> rw [hr] at hok <;> cases hok
      cases hd
  | ref o =>
      simp only [awaitBind] at hok
      rcases hr : s.bind_ (s.objects o).1.coro priority with ⟨_ | _, s1⟩ <;> rw [hr] at hok <;>
        cases hok
      cases hd
  | async a =>
      have ht : Edits none 0 False s _ := toHandle_edits a (fun h => h.elim)
      simp only [awaitBind] at hok
      rcases hr : (toHandle s a).2.detach (toHandle s a).1 priority with ⟨_ | _, s1⟩ <;>
        rw [hr] at hok <;> cases hok
      rw [List.mem_singleton.mp hd]
      exact detach_registered (ht.tidy hs).fresh hr
  | comp c as =>
      simp only [awaitBind] at hok
      rcases hr : awaitBindAll (resolvePriority c.priority priority) as s with ⟨_ | as', s1⟩ <;>
        rw [hr] at hok <;> cases hok
      exact awaitBindAll_asyncs hs hr hd

theorem awaitBindAll_asyncs {priority : Int} {as as' : List (Awaitable P.User)}
    {s s' : State P} {d : CoroId} (hs : s.Tidy False)
    (hok : awaitBindAll priority as s = (.ok as', s')) (hd : d ∈ asyncsAll as') :
    ¬ s'.Orphan d ∧ ¬ s'.Unstarted d := by
  cases as with
  | nil => cases hok; cases hd
  | cons a as =>
      simp only [awaitBindAll] at hok
      have he : Edits none 0 False s _ := awaitBind_edits priority a s hs (by simp)
      rcases hr : awaitBind priority a s with ⟨_ | a1, s1⟩ <;> rw [hr] at hok he
      · cases hok
      · have he' : Edits none 0 False s1 _ :=
          awaitBindAll_edits priority as s1 (he.tidy hs) (by simp)
        simp only at hok
        rcases hr' : awaitBindAll priority as s1 with ⟨_ | as1, s2⟩ <;> rw [hr'] at hok he' <;>
          cases hok
        rcases List.mem_append.mp hd with hd | hd
        · -- what is registered stays registered
          obtain ⟨h1, h2⟩ := awaitBind_asyncs hs hr hd
          exact ⟨fun ho => (he'.orphan ho).elim h1 h2, fun hu => h2 (he'.ext.unstarted hu)⟩
        · exact awaitBindAll_asyncs (he.tidy hs) hr' hd
end

theorem toHandle_orphan {a : Awaitable P.User} {d : CoroId} (h : (toHandle s a).2.Orphan d) :
    s.Orphan d := by
  unfold toHandle at h
  split at h
  · exact h
  · exact h
  · exact newCoro_orphan h
  · exact newCoro_orphan h
  · exact newCoro_orphan h

mutual
/-- After `await_bind`, a new orphan is a process of the awaitable. -/
theorem awaitBind_orphan {priority : Int} {a a' : Awaitable P.User} {s s' : State P}
    {d : CoroId} (hs : s.Tidy False) (hok : awaitBind priority a s = (.ok a', s'))
    (h : s'.Orphan d) : s.Orphan d ∨ d ∈ procs s' a' := by
  cases a with
  | timeout | wait | wake => cases hok; exact .inl h
  | coroutine p tkn =>
      have hb := bind_orphan (s := s) (d := d) p.coro priority
      simp only [awaitBind] at hok
      rcases hr : s.bind_ p.coro priority with ⟨_ | _, s1⟩ <;> rw [hr] at hb hok <;> cases hok
      exact (hb h).imp id fun hd => by simp [procs, hd.2]
  | ref o =>
      have hb := bind_orphan (s := s) (d := d) ((s.objects o).1.coro) priority
      have he : Edits none 0 False s _ := bind_edits (s.objects o).1.coro priority
      simp only [awaitBind] at hok
      rcases hr : s.bind_ (s.objects o).1.coro priority with ⟨_ | _, s1⟩ <;>
        rw [hr] at hb he hok <;> cases hok
      have ho : (s'.objects o).1 = (s.objects o).1 := he.ext.object o
      exact (hb h).imp id fun hd => by simp [procs, ho, hd.2]
  | call f o =>
      cases hok
      exact (startCoro_orphan h).imp newCoro_orphan fun hd => by simp [procs, hd]
  | sequential as o =>
      cases hok
      exact (startCoro_orphan h).imp newCoro_orphan fun hd => by simp [procs, hd]
  | async a =>
      simp only [awaitBind] at hok
      have hd := detach_orphan (s := (toHandle s a).2) (d := d) (toHandle s a).1
        priority
      rcases hr : (toHandle s a).2.detach (toHandle s a).1 priority with ⟨_ | _, s1⟩ <;>
        rw [hr] at hok hd <;> cases hok
      exact .inl (toHandle_orphan (hd h))
  | comp c as =>
      simp only [awaitBind] at hok
      rcases hr : awaitBindAll (resolvePriority c.priority priority) as s with ⟨_ | as', s1⟩ <;>
        rw [hr] at hok <;> cases hok
      exact awaitBindAll_orphan hs hr h

theorem awaitBindAll_orphan {priority : Int} {as as' : List (Awaitable P.User)}
    {s s' : State P} {d : CoroId} (hs : s.Tidy False)
    (hok : awaitBindAll priority as s = (.ok as', s')) (h : s'.Orphan d) :
    s.Orphan d ∨ d ∈ procsAll s' as' := by
  cases as with
  | nil => cases hok; exact .inl h
  | cons a as =>
      simp only [awaitBindAll] at hok
      have he : Edits none 0 False s _ := awaitBind_edits priority a s hs (by simp)
      rcases hr : awaitBind priority a s with ⟨_ | a1, s1⟩ <;> rw [hr] at hok he
      · cases hok
      · have he' : Edits none 0 False s1 _ :=
          awaitBindAll_edits priority as s1 (he.tidy hs) (by simp)
        simp only at hok
        rcases hr' : awaitBindAll priority as s1 with ⟨_ | as1, s2⟩ <;> rw [hr'] at hok he' <;>
          cases hok
        simp only [procsAll, List.mem_append, procs_congr he'.ext.object a1]
        rcases awaitBindAll_orphan (he.tidy hs) hr' h with h1 | h1
        · exact (awaitBind_orphan hs hr h1).imp id .inl
        · exact .inr (.inr h1)
end

mutual
/-- When `await_bind` throws, a new orphan is a process that was bound before. -/
theorem awaitBind_error_orphan {priority : Int} {a : Awaitable P.User} {s s' : State P}
    {e : Exn P.Error} {d : CoroId} (hs : s.Tidy False)
    (herr : awaitBind priority a s = (.error e, s')) (h : s'.Orphan d) :
    s.Orphan d ∨ d ∈ procsAll s' (boundBeforeThrow priority a s) := by
  cases a with
  | timeout | wait | wake | call | sequential => cases herr
  | coroutine p tkn =>
      have hb := bind_orphan (s := s) (d := d) p.coro priority
      simp only [awaitBind] at herr
      rcases hr : s.bind_ p.coro priority with ⟨_ | _, s1⟩ <;> rw [hr] at hb herr <;> cases herr
      exact .inl ((hb h).resolve_right fun hd => by cases hd.1)
  | ref o =>
      have hb := bind_orphan (s := s) (d := d) ((s.objects o).1.coro) priority
      simp only [awaitBind] at herr
      rcases hr : s.bind_ (s.objects o).1.coro priority with ⟨_ | _, s1⟩ <;>
        rw [hr] at hb herr <;> cases herr
      exact .inl ((hb h).resolve_right fun hd => by cases hd.1)
  | async a =>
      simp only [awaitBind] at herr
      have hd := detach_orphan (s := (toHandle s a).2) (d := d) (toHandle s a).1
        priority
      rcases hr : (toHandle s a).2.detach (toHandle s a).1 priority with ⟨_ | _, s1⟩ <;>
        rw [hr] at herr hd <;> cases herr
      exact .inl (toHandle_orphan (hd h))
  | comp c as =>
      simp only [awaitBind] at herr
      rcases hr : awaitBindAll (resolvePriority c.priority priority) as s with ⟨_ | as', s1⟩ <;>
        rw [hr] at herr <;> cases herr
      exact awaitBindAll_error_orphan hs hr h

theorem awaitBindAll_error_orphan {priority : Int} {as : List (Awaitable P.User)}
    {s s' : State P} {e : Exn P.Error} {d : CoroId} (hs : s.Tidy False)
    (herr : awaitBindAll priority as s = (.error e, s')) (h : s'.Orphan d) :
    s.Orphan d ∨ d ∈ procsAll s' (boundBeforeThrowAll priority as s) := by
  cases as with
  | nil => cases herr
  | cons a as =>
      simp only [awaitBindAll] at herr
      have he : Edits none 0 False s _ := awaitBind_edits priority a s hs (by simp)
      simp only [boundBeforeThrowAll]
      rcases hr : awaitBind priority a s with ⟨e1 | a1, s1⟩ <;> rw [hr] at herr he
      · cases herr
        exact awaitBind_error_orphan hs hr h
      · have he' : Edits none 0 False s1 _ :=
          awaitBindAll_edits priority as s1 (he.tidy hs) (by simp)
        simp only at herr
        rcases hr' : awaitBindAll priority as s1 with ⟨e2 | as1, s2⟩ <;>
          rw [hr'] at herr he' <;> cases herr
        simp only [procsAll, List.mem_append, procs_congr he'.ext.object a1]
        rcases awaitBindAll_error_orphan (he.tidy hs) hr' h with h1 | h1
        · exact (awaitBind_orphan hs hr h1).imp id .inl
        · exact .inr (.inr h1)
end

mutual
theorem awaitBind_error_asyncs {priority : Int} {a : Awaitable P.User} {s s' : State P}
    {e : Exn P.Error} {d : CoroId} (hs : s.Tidy False)
    (herr : awaitBind priority a s = (.error e, s'))
    (hd : d ∈ asyncsAll (boundBeforeThrow priority a s)) :
    ¬ s'.Orphan d ∧ ¬ s'.Unstarted d := by
  cases a with
  | comp c as =>
      simp only [awaitBind] at herr
      rcases hr : awaitBindAll (resolvePriority c.priority priority) as s with ⟨_ | as', s1⟩ <;>
        rw [hr] at herr <;> cases herr
      exact awaitBindAll_error_asyncs hs hr hd
  | _ => cases hd

theorem awaitBindAll_error_asyncs {priority : Int} {as : List (Awaitable P.User)}
    {s s' : State P} {e : Exn P.Error} {d : CoroId} (hs : s.Tidy False)
    (herr : awaitBindAll priority as s = (.error e, s'))
    (hd : d ∈ asyncsAll (boundBeforeThrowAll priority as s)) :
    ¬ s'.Orphan d ∧ ¬ s'.Unstarted d := by
  cases as with
  | nil => cases herr
  | cons a as =>
      simp only [awaitBindAll] at herr
      have he : Edits none 0 False s _ := awaitBind_edits priority a s hs (by simp)
      simp only [boundBeforeThrowAll] at hd
      rcases hr : awaitBind priority a s with ⟨e1 | a1, s1⟩ <;> rw [hr] at herr he hd
      · cases herr
        exact awaitBind_error_asyncs hs hr hd
      · have he' : Edits none 0 False s1 _ :=
          awaitBindAll_edits priority as s1 (he.tidy hs) (by simp)
        simp only at herr
        rcases hr' : awaitBindAll priority as s1 with ⟨e2 | as1, s2⟩ <;>
          rw [hr'] at herr he' <;> cases herr
        rcases List.mem_append.mp hd with hd | hd
        · obtain ⟨h1, h2⟩ := awaitBind_asyncs hs hr hd
          exact ⟨fun ho => (he'.orphan ho).elim h1 h2, fun hu => h2 (he'.ext.unstarted hu)⟩
        · exact awaitBindAll_error_asyncs (he.tidy hs) hr' hd
end

/-! ### await_ready -/

mutual
theorem awaitReady_coros (a : Awaitable P.User) (s : State P) :
    (awaitReady a s).2.2.coros = s.coros := by
  cases a with
  | wake evt => simp [awaitReady, State.wake]
  | comp c as => exact awaitReadyAll_coros as s
  | _ => rfl

theorem awaitReadyAll_coros (as : List (Awaitable P.User)) (s : State P) :
    (awaitReadyAll as s).2.2.coros = s.coros := by
  cases as with
  | nil => rfl
  | cons a as => exact (awaitReadyAll_coros as _).trans (awaitReady_coros a s)
end

mutual
theorem awaitReady_procs (u : State P) (a : Awaitable P.User) (s : State P) :
    procs u (awaitReady a s).2.1 = procs u a := by
  cases a with
  | comp c as => exact awaitReadyAll_procs u as s
  | _ => rfl

theorem awaitReadyAll_procs (u : State P) (as : List (Awaitable P.User)) (s : State P) :
    procsAll u (awaitReadyAll as s).2.1 = procsAll u as := by
  cases as with
  | nil => rfl
  | cons a as =>
      have h1 := awaitReady_procs u a s
      have h2 := awaitReadyAll_procs u as (awaitReady a s).2.2
      simp only [awaitReadyAll, procsAll, h1, h2]
end

mutual
theorem awaitReady_asyncs (a : Awaitable P.User) (s : State P) :
    asyncs (awaitReady a s).2.1 = asyncs a := by
  cases a with
  | comp c as => exact awaitReadyAll_asyncs as s
  | _ => rfl

theorem awaitReadyAll_asyncs (as : List (Awaitable P.User)) (s : State P) :
    asyncsAll (awaitReadyAll as s).2.1 = asyncsAll as := by
  cases as with
  | nil => rfl
  | cons a as =>
      have h1 := awaitReady_asyncs a s
      have h2 := awaitReadyAll_asyncs as (awaitReady a s).2.2
      simp only [awaitReadyAll, asyncsAll, h1, h2]
end

/-! ### await_suspend -/

theorem suspendHandle_orphan (p : Handle) (tkn : Option TokenId) (cd : Option CoroId)
    {d : CoroId} (h : (s.suspendHandle p tkn cd).2.Orphan d) :
    s.Orphan d ∧ (tkn = none → d ≠ p.coro) := by
  cases tkn with
  | some t => exact ⟨h, fun ht => by cases ht⟩
  | none =>
      obtain ⟨h1, hne⟩ := newCompletion_orphan h
      exact ⟨h1, fun _ => hne⟩

mutual
/-- `await_suspend` makes no orphan, and gives a token to the processes it reaches. -/
theorem awaitSuspend_orphan (cd : Option CoroId) (a : Awaitable P.User) (s : State P)
    {d : CoroId} (h : (awaitSuspend cd a s).2.Orphan d) :
    s.Orphan d ∧ d ∉ reached cd a s := by
  cases a with
  | timeout | wait | wake | call | sequential | async => exact ⟨h, by simp [reached]⟩
  | coroutine p tkn =>
      have hsus := suspendHandle_orphan (s := s) (d := d) p tkn cd
      simp only [awaitSuspend] at h
      rcases hr : s.suspendHandle p tkn cd with ⟨_ | _, s1⟩ <;> rw [hr] at h hsus
      · refine ⟨(hsus h).1, ?_⟩
        cases tkn with
        | none => cases hr
        | some t => simp [reached]
      · refine ⟨(hsus h).1, ?_⟩
        cases tkn with
        | none => simpa [reached] using (hsus h).2 rfl
        | some t => simp [reached]
  | ref o =>
      have hsus := suspendHandle_orphan (s := s) (d := d) (s.objects o).1 (s.objects o).2 cd
      simp only [awaitSuspend] at h
      rcases hr : s.suspendHandle (s.objects o).1 (s.objects o).2 cd with ⟨_ | _, s1⟩ <;>
        rw [hr] at h hsus
      · refine ⟨(hsus h).1, ?_⟩
        cases ht : (s.objects o).2 with
        | none => rw [ht] at hr; cases hr
        | some t => simp [reached, ht]
      · have h1 : s1.Orphan d := h
        refine ⟨(hsus h1).1, ?_⟩
        cases ht : (s.objects o).2 with
        | none => simpa [reached, ht] using (hsus h1).2 ht
        | some t => simp [reached, ht]
  | comp c as =>
      have hall := awaitSuspendAll_orphan cd s.nextHandler c.ready as
        (s.newHandler c as.length cd) (d := d)
      simp only [awaitSuspend] at h
      rcases hr : awaitSuspendAll cd s.nextHandler c.ready as (s.newHandler c as.length cd)
        with ⟨_ | _, s1⟩ <;> rw [hr] at h hall <;> exact hall h

theorem awaitSuspendAll_orphan (cd : Option CoroId) (hd : HandlerId) (ready : List Bool)
    (as : List (Awaitable P.User)) (s : State P) {d : CoroId}
    (h : (awaitSuspendAll cd hd ready as s).2.Orphan d) :
    s.Orphan d ∧ d ∉ reachedAll cd hd ready as s := by
  cases as with
  | nil => exact ⟨h, by simp [reachedAll]⟩
  | cons a as =>
      simp only [awaitSuspendAll] at h
      simp only [reachedAll]
      split at h
      · next hready =>
          have hall := awaitSuspendAll_orphan cd hd ready.tail as s (d := d)
          rw [if_pos hready]
          rcases hr : awaitSuspendAll cd hd ready.tail as s with ⟨_ | _, s1⟩ <;>
            rw [hr] at h hall <;> exact hall h
      · next hready =>
          have hone := awaitSuspend_orphan cd a s (d := d)
          rw [if_neg hready]
          rcases hr : awaitSuspend cd a s with ⟨_ | a', s1⟩ <;> rw [hr] at h hone
          · exact hone h
          · have hall := awaitSuspendAll_orphan cd hd ready.tail as
              (installOn s1 hd (awaitToken s1 a')) (d := d)
            simp only at h
            have h2 : (installOn s1 hd (awaitToken s1 a')).Orphan d ∧
                d ∉ reachedAll cd hd ready.tail as (installOn s1 hd (awaitToken s1 a')) := by
              rcases hr' : awaitSuspendAll cd hd ready.tail as
                (installOn s1 hd (awaitToken s1 a')) with ⟨_ | _, s2⟩ <;>
                rw [hr'] at h hall <;> exact hall h
            have h1 : s1.Orphan d := h2.1.congr (by cases awaitToken s1 a' <;> rfl)
            simp only [List.mem_append, not_or]
            exact ⟨(hone h1).1, (hone h1).2, h2.2⟩
end

/-! ### co_await -/

mutual
theorem awaitResumeTag_coros (a : Awaitable P.User) (s : State P) :
    (awaitResumeTag a s).2.coros = s.coros := by
  cases a with
  | comp c as => exact awaitResumeAll_coros as s
  | _ => rfl

theorem awaitResumeAll_coros (as : List (Awaitable P.User)) (s : State P) :
    (awaitResumeAll as s).2.coros = s.coros := by
  cases as with
  | nil => rfl
  | cons a as =>
      have h := awaitResumeTag_coros a s
      simp only [awaitResumeAll]
      rcases hr : awaitResumeTag a s with ⟨_ | _, s1⟩ <;> rw [hr] at h
      · exact h
      · exact (awaitResumeAll_coros as s1).trans h
end

theorem awaitResume_coros (a : Awaitable P.User) (s : State P) :
    (awaitResume a s).2.coros = s.coros := by
  have h := awaitResumeTag_coros a s
  unfold awaitResume
  rcases hr : awaitResumeTag a s with ⟨_ | _, s1⟩ <;> rw [hr] at h
  · exact h
  · simp only
    split <;> exact h

/-- Whether a process is an orphan does not depend on where its body is. -/
theorem State.Orphan.setStatus {c d : CoroId} {st : Status P} (h : (s.setStatus c st).Orphan d)
    (hst : (s.coros c).complete = false) : s.Orphan d := by
  by_cases hd : d = c
  · subst hd
    obtain ⟨h1, -, h3⟩ := h
    simp only [State.setStatus, State.setCoro, Function.update_self] at h1 h3
    exact ⟨h1, hst, h3⟩
  · simpa [State.Orphan, State.setStatus, State.setCoro, Function.update_of_ne hd] using h

theorem suspend_orphan {c d : CoroId} {a : Awaitable P.User}
    {k : Result P.Value P.Error → P.Frame} (h : (s.suspend c a k).Orphan d)
    (hst : (s.coros c).complete = false) : s.Orphan d :=
  State.Orphan.setStatus (h.congr (s := s.setStatus c (.suspended a k))
    (by unfold State.suspend; split <;> rfl)) hst

/-- A covered `co_await` makes no orphan. -/
theorem coAwait_orphan {c : CoroId} {a : Awaitable P.User}
    {k : Result P.Value P.Error → P.Frame} (hs : s.Tidy False) (hlt : c < s.nextCoro)
    (hst : (s.coros c).complete = false) (hcov : Covered s c a) (hno : ∀ d, ¬ s.Orphan d)
    (d : CoroId) : ¬ (s.coAwait c a k).Orphan d := by
  have hkeep : ∀ {cd n s1}, Edits cd n False s s1 → (s1.coros c).complete = false :=
    fun he => (he.ext.complete hlt).trans hst
  have he1 : Edits none 0 False s _ :=
    awaitBind_edits (s.coros c).priority (a.wrap s) s hs (by simp)
  unfold State.coAwait
  unfold Covered at hcov
  intro h
  rcases hr1 : awaitBind (s.coros c).priority (a.wrap s) s with ⟨e | a1, s1⟩ <;>
    simp only [hr1] at hcov h he1
  · have h1 : s1.Orphan d := State.Orphan.setStatus h (hkeep he1)
    have hin := (awaitBind_error_orphan hs hr1 h1).resolve_left (hno d)
    have hun := (he1.orphan h1).resolve_left (hno d)
    exact (awaitBind_error_asyncs hs hr1 (hcov d hin hun)).1 h1
  · have hco := awaitReady_coros a1 s1
    have hpr := awaitReady_procs s1 a1 s1
    have has := awaitReady_asyncs a1 s1
    have he2 : Edits none 0 False s1 _ := awaitReady_edits a1 s1
    -- an orphan after `await_ready` is a process of the awaitable that it has started
    have hin : ∀ a2 s2 b, awaitReady a1 s1 = (b, a2, s2) → s2.Orphan d →
        d ∈ procs s2 a2 ∧ s.Unstarted d ∧ d ∉ asyncs a2 := by
      intro a2 s2 b hr2 h2
      rw [hr2] at hco hpr has he2
      have ho1 := h2.congr hco
      have hpr2 : procs s2 a2 = procs s1 a2 := procs_congr he2.ext.object a2
      refine ⟨?_, (he1.orphan ho1).resolve_left (hno d), fun hd => ?_⟩
      · rw [hpr2, hpr]
        exact (awaitBind_orphan hs hr1 ho1).resolve_left (hno d)
      · rw [has] at hd
        exact (awaitBind_asyncs hs hr1 hd).1 ho1
    rcases hr2 : awaitReady a1 s1 with ⟨_ | _, a2, s2⟩ <;> simp only [hr2] at hcov h he2
    · have hsus := awaitSuspend_orphan s2.current a2 s2 (d := d)
      have hbound : Bound s1 a1 := (awaitBind_bound hs (fun h => h.elim) hr1).1
      have hsusp := awaitReady_suspendable hbound
      rw [hr2] at hsusp
      have he3 : Edits s2.current s2.nextToken False s2 _ :=
        (awaitSuspend_spec s2.current a2 s2 (Edits.tidy (he1.trans he2) hs) (hsusp rfl) (by simp)).1
      have hst3 : ((awaitSuspend s2.current a2 s2).2.coros c).complete = false :=
        (he3.ext.complete (Nat.lt_of_lt_of_le hlt (Edits.ext (he1.trans he2)).nextCoro)).trans
          (hkeep (he1.trans he2))
      have hfin : (awaitSuspend s2.current a2 s2).2.Orphan d := by
        rcases hr3 : awaitSuspend s2.current a2 s2 with ⟨_ | a3, s3⟩ <;> rw [hr3] at h hst3
        · exact State.Orphan.setStatus h hst3
        · exact suspend_orphan h hst3
      obtain ⟨h2, hnot⟩ := hsus hfin
      obtain ⟨hp, hun, has⟩ := hin a2 s2 _ hr2 h2
      exact (hcov d hp hun).elim has hnot
    · have h2 : (awaitResume a2 s2).2.Orphan d := State.Orphan.setStatus h (by
        rw [awaitResume_coros]
        exact hkeep (he1.trans he2))
      have h2 : s2.Orphan d := h2.congr (awaitResume_coros a2 s2)
      obtain ⟨hp, hun, has⟩ := hin a2 s2 _ hr2 h2
      exact has (hcov d hp hun)

end Cxxdes
