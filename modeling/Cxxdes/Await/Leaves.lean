-- SUMMARY: The leaves of an awaited expression, and which of the processes they start get a completion token.
import Cxxdes.Await.Handlers
import Cxxdes.Await.Registered
import Mathlib.Data.List.Forall2

/-!
# Leaves

What happens to the processes of a `co_await` can be read off the expression and the state
before it. The leaves are the awaitables in it that are not compositions, in the order in which
they are bound. A leaf is skipped by `await_suspend` when it is ready, or when a composition
around it is satisfied by children that are. `Registers` says that no process is left without
a completion token.
-/

namespace Cxxdes

variable {P : Program} {s s1 s2 u u' : State P} {d : CoroId}

/-! ### Expressions -/

mutual
/-- Whether the awaitable is ready when a `co_await` of it begins in `s`. -/
def Awaitable.readyIn (s : State P) : Awaitable P.User → Bool
  | .timeout relative time _ _ => !relative && decide (time ≤ s.now)
  | .wake _ => true
  | .coroutine p _ => (s.coros p.coro).complete
  | .ref h => (s.coros (s.objects h).1.coro).complete
  | .async _ => true
  | .comp c as => c.cond.holds as.length ((readiesIn s as).count false)
  | _ => false

def Awaitable.readiesIn (s : State P) : List (Awaitable P.User) → List Bool
  | [] => []
  | a :: as => a.readyIn s :: readiesIn s as
end

/-- An awaitable that is not a composition, in an expression. `skipped`: the leaf is ready, or a
composition around it is. -/
structure Leaf (U : Type) where
  awaitable : Awaitable U
  skipped : Bool

mutual
def Awaitable.leaves (s : State P) (skipped : Bool) : Awaitable P.User → List (Leaf P.User)
  | .comp _ as => leavesAll s skipped as
  | a => [⟨a, skipped⟩]

def Awaitable.leavesAll (s : State P) (skipped : Bool) :
    List (Awaitable P.User) → List (Leaf P.User)
  | [] => []
  | a :: as => a.leaves s (skipped || a.readyIn s) ++ leavesAll s skipped as
end

/-- The process of a handle. -/
def Awaitable.process (s : State P) : Awaitable P.User → Option CoroId
  | .coroutine p _ => some p.coro
  | .ref h => some (s.objects h).1.coro
  | _ => none

/-- The process of a handle that is given to `async`. -/
def Awaitable.detached (s : State P) : Awaitable P.User → Option CoroId
  | .async a => a.process s
  | _ => none

/-- Binding the leaf starts a process that `async` does not register. -/
def Awaitable.Starts (s : State P) : Awaitable P.User → Prop
  | .call _ _ => True
  | .sequential _ _ => True
  | a => ∃ d, a.process s = some d ∧ (s.coros d).env = .unbound

/-- Binding the leaf throws: its process is bound to another environment. -/
def Awaitable.Foreign (s : State P) (a : Awaitable P.User) : Prop :=
  ∃ d, (a.process s = some d ∨ a.detached s = some d) ∧ (s.coros d).env = .elsewhere

/-- The handle objects that the leaves await by reference, without the skipped ones. -/
def Leaf.objects {U : Type} : List (Leaf U) → List HandleId
  | [] => []
  | ⟨.ref h, false⟩ :: ls => h :: objects ls
  | _ :: ls => objects ls

/-- The handle objects are not being awaited, and differ. -/
def State.Free (s : State P) (hs : List HandleId) : Prop :=
  hs.Nodup ∧ ∀ h ∈ hs, (s.objects h).2 = none

/-- `await_suspend` of the leaf is called and does not throw: the leaf is not skipped, and neither
it nor a leaf before it, `pre`, is a handle object that is already being awaited. -/
def Leaf.Suspends (s : State P) (pre : List (Leaf P.User)) (l : Leaf P.User) : Prop :=
  l.skipped = false ∧ s.Free (objects (pre ++ [l]))

/-- A `co_await` of the leaves `ls` in the state `s` leaves no process that it starts without a
completion token. Handles are of processes that exist. -/
structure Registers (s : State P) (ls : List (Leaf P.User)) : Prop where
  exists_process : ∀ l ∈ ls, ∀ d, l.awaitable.process s = some d ∨ l.awaitable.detached s = some d →
    d < s.nextCoro
  foreign : ∀ pre l post, ls = pre ++ l :: post → l.awaitable.Foreign s →
    (∀ k ∈ pre, ¬ k.awaitable.Foreign s) → ∀ k ∈ pre, k.awaitable.Starts s →
      ∃ d, k.awaitable.process s = some d ∧ ∃ j ∈ pre, j.awaitable.detached s = some d
  suspends : (∀ l ∈ ls, ¬ l.awaitable.Foreign s) →
    ∀ pre l post, ls = pre ++ l :: post → l.awaitable.Starts s → l.Suspends s pre ∨
      ∃ d, l.awaitable.process s = some d ∧
        ((∃ k ∈ ls, k.awaitable.detached s = some d) ∨
          ∃ pre' k post', ls = pre' ++ k :: post' ∧ k.awaitable.process s = some d ∧
            k.Suspends s pre')

/-! ### Handles that are copied -/

/-- The handles of the awaitable have no completion token. -/
def Leaf.Copied {U : Type} (ls : List (Leaf U)) : Prop :=
  ∀ l ∈ ls, ∀ p t, l.awaitable ≠ .coroutine p (some t)

mutual
theorem copy_copied (s : State P) (sk : Bool) (a : Awaitable P.User) :
    Leaf.Copied (a.copy.leaves s sk) := by
  cases a with
  | comp c as => exact copyAll_copied s sk as
  | timeout | wait | wake | coroutine | ref | call | sequential | async =>
      intro l hl p t
      obtain rfl := List.mem_singleton.mp hl
      simp [Awaitable.copy]

theorem copyAll_copied (s : State P) (sk : Bool) (as : List (Awaitable P.User)) :
    Leaf.Copied (Awaitable.leavesAll s sk (Awaitable.copyAll as)) := by
  cases as with
  | nil => exact fun l hl => absurd hl List.not_mem_nil
  | cons a as =>
      intro l hl
      rcases List.mem_append.mp hl with hl | hl
      · exact copy_copied s _ a l hl
      · exact copyAll_copied s sk as l hl
end

theorem wrap_copied (s : State P) (sk : Bool) (a : Awaitable P.User) :
    Leaf.Copied ((a.wrap s).leaves s sk) := by
  cases a with
  | ref h =>
      intro l hl p t
      obtain rfl := List.mem_singleton.mp hl
      simp [Awaitable.wrap]
  | timeout | wait | wake | coroutine | call | sequential | async | comp =>
      exact copy_copied s sk _

/-! ### await_bind -/

/-- What `await_bind` has made of an awaitable, from the state `s` on. -/
inductive BoundAs (s : State P) : Awaitable P.User → Awaitable P.User → Prop where
  | timeout (relative time own priority tkn) :
      BoundAs s (.timeout relative time own tkn) (.timeout relative time priority tkn)
  | wait (evt latency own priority tkn) :
      BoundAs s (.wait evt latency own tkn) (.wait evt latency priority tkn)
  | wake (evt) : BoundAs s (.wake evt) (.wake evt)
  | coroutine (p) (hlt : p.coro < s.nextCoro) (henv : (s.coros p.coro).env ≠ .elsewhere) :
      BoundAs s (.coroutine p none) (.coroutine p none)
  | ref (h) (hlt : (s.objects h).1.coro < s.nextCoro)
      (henv : (s.coros (s.objects h).1.coro).env ≠ .elsewhere) : BoundAs s (.ref h) (.ref h)
  | call (f o p) (hge : s.nextCoro ≤ p.coro) : BoundAs s (.call f o) (.coroutine p none)
  | sequential (as o p) (hge : s.nextCoro ≤ p.coro) :
      BoundAs s (.sequential as o) (.coroutine p none)
  | async (a p) (hp : ∀ d, a.process s = some d → d = p.coro ∧ (s.coros d).env ≠ .elsewhere) :
      BoundAs s (.async a) (.async (.coroutine p none))
  | comp (c c' as as') (hcond : c'.cond = c.cond) (has : List.Forall₂ (BoundAs s) as as') :
      BoundAs s (.comp c as) (.comp c' as')

/-- A process that is bound elsewhere stays so. -/
theorem Ext.elsewhere {n : TokenId} (hx : Ext n s u) (hlt : d < s.nextCoro)
    (h : (s.coros d).env = .elsewhere) : (u.coros d).env = .elsewhere :=
  ((hx.coro d hlt).bound (by simp [h])).1.trans h

theorem bind_elsewhere {c : CoroId} {priority : Int} {e : Exn P.Error}
    (h : (s.bind_ c priority).1 = .error e) : (s.coros c).env = .elsewhere := by
  unfold State.bind_ at h
  cases henv : (s.coros c).env with
  | elsewhere => rfl
  | here | unbound => rw [henv] at h; cases h

theorem bind_not_elsewhere {c : CoroId} {priority : Int} {r : Unit}
    (h : (s.bind_ c priority).1 = .ok r) : (s.coros c).env ≠ .elsewhere := by
  intro henv
  unfold State.bind_ at h
  rw [henv] at h
  cases h

theorem detach_elsewhere {p : Handle} {priority : Int} {e : Exn P.Error}
    (h : (s.detach p priority).1 = .error e) : (s.coros p.coro).env = .elsewhere := by
  unfold State.detach at h
  rcases hr : s.bind_ p.coro priority with ⟨e' | _, s1⟩ <;> rw [hr] at h
  · exact bind_elsewhere (by rw [hr])
  · simp only at h
    split at h <;> cases h

theorem detach_not_elsewhere {p : Handle} {priority : Int} {r : Unit}
    (h : (s.detach p priority).1 = .ok r) : (s.coros p.coro).env ≠ .elsewhere := by
  unfold State.detach at h
  rcases hr : s.bind_ p.coro priority with ⟨_ | _, s1⟩ <;> rw [hr] at h
  · cases h
  · exact bind_not_elsewhere (by rw [hr])

/-- What is known of the handles in an expression. -/
def Leaf.Known (s : State P) (ls : List (Leaf P.User)) : Prop :=
  Copied ls ∧ ∀ l ∈ ls, ∀ d, l.awaitable.process s = some d ∨ l.awaitable.detached s = some d →
    d < s.nextCoro

theorem Leaf.Known.left {ls ls' : List (Leaf P.User)} (h : Known s (ls ++ ls')) : Known s ls :=
  ⟨fun l hl => h.1 l (List.mem_append_left _ hl), fun l hl => h.2 l (List.mem_append_left _ hl)⟩

theorem Leaf.Known.right {ls ls' : List (Leaf P.User)} (h : Known s (ls ++ ls')) : Known s ls' :=
  ⟨fun l hl => h.1 l (List.mem_append_right _ hl), fun l hl => h.2 l (List.mem_append_right _ hl)⟩

theorem Leaf.Known.lt {a : Awaitable P.User} {sk : Bool} (h : Known s [⟨a, sk⟩]) {d : CoroId}
    (hd : a.process s = some d ∨ a.detached s = some d) : d < s.nextCoro :=
  h.2 _ (List.mem_singleton.mpr rfl) d hd

/-- The handle that `async` of a handle starts is that of its process. -/
theorem toHandle_process {a : Awaitable P.User} (hobj : ∀ h, (u.objects h).1 = (s.objects h).1)
    (hd : a.process s = some d) : (toHandle u a).1.coro = d ∧ (toHandle u a).2 = u := by
  cases a with
  | coroutine p tkn => exact ⟨Option.some.inj hd, rfl⟩
  | ref h =>
      refine ⟨?_, rfl⟩
      rw [toHandle, hobj]
      exact Option.some.inj hd
  | timeout | wait | wake | call | sequential | async | comp => cases hd

mutual
theorem awaitBind_boundAs {n : TokenId} {priority : Int} {sk : Bool} {a a' : Awaitable P.User}
    {u u' : State P} (hu : u.Tidy False) (hx : Ext n s u) (ha : Leaf.Known s (a.leaves s sk))
    (hok : awaitBind priority a u = (.ok a', u')) : BoundAs s a a' := by
  cases a with
  | timeout => cases hok; exact .timeout _ _ _ _ _
  | wait => cases hok; exact .wait _ _ _ _ _
  | wake => cases hok; exact .wake _
  | coroutine p tkn =>
      simp only [awaitBind] at hok
      rcases hr : u.bind_ p.coro priority with ⟨_ | _, u1⟩ <;> rw [hr] at hok <;> cases hok
      have hlt : p.coro < s.nextCoro := ha.lt (.inl rfl)
      cases tkn with
      | some t => exact absurd rfl (ha.1 _ (List.mem_singleton.mpr rfl) p t)
      | none =>
          exact .coroutine p hlt fun henv =>
            bind_not_elsewhere (by rw [hr]) (hx.elsewhere hlt henv)
  | ref o =>
      simp only [awaitBind, hx.object o] at hok
      rcases hr : u.bind_ (s.objects o).1.coro priority with ⟨_ | _, u1⟩ <;> rw [hr] at hok <;>
        cases hok
      have hlt : (s.objects o).1.coro < s.nextCoro := ha.lt (.inl rfl)
      exact .ref o hlt fun henv => bind_not_elsewhere (by rw [hr]) (hx.elsewhere hlt henv)
  | call f o => cases hok; exact .call f o _ hx.nextCoro
  | sequential as o => cases hok; exact .sequential as o _ hx.nextCoro
  | async a =>
      simp only [awaitBind] at hok
      rcases hr : (toHandle u a).2.detach (toHandle u a).1 priority with ⟨_ | _, u1⟩ <;>
        rw [hr] at hok <;> cases hok
      refine .async a _ fun d hd => ?_
      obtain ⟨hcoro, hst⟩ := toHandle_process hx.object hd
      refine ⟨hcoro.symm, fun henv => ?_⟩
      have hlt : d < s.nextCoro := ha.lt (.inr hd)
      refine detach_not_elsewhere (by rw [hr]) ?_
      rw [hst, hcoro]
      exact hx.elsewhere hlt henv
  | comp c as =>
      simp only [awaitBind] at hok
      rcases hr : awaitBindAll (resolvePriority c.priority priority) as u with ⟨_ | as', u1⟩ <;>
        rw [hr] at hok <;> cases hok
      exact .comp c _ as as' rfl (awaitBindAll_boundAs hu hx ha hr)

theorem awaitBindAll_boundAs {n : TokenId} {priority : Int} {sk : Bool}
    {as as' : List (Awaitable P.User)} {u u' : State P} (hu : u.Tidy False) (hx : Ext n s u)
    (ha : Leaf.Known s (Awaitable.leavesAll s sk as))
    (hok : awaitBindAll priority as u = (.ok as', u')) : List.Forall₂ (BoundAs s) as as' := by
  cases as with
  | nil => cases hok; exact .nil
  | cons a as =>
      simp only [awaitBindAll] at hok
      have he : Edits none n False u _ := awaitBind_edits priority a u hu fun hf => hf.elim
      rcases hr : awaitBind priority a u with ⟨_ | a1, u1⟩ <;> rw [hr] at hok he
      · cases hok
      · simp only at hok
        rcases hr' : awaitBindAll priority as u1 with ⟨_ | as1, u2⟩ <;> rw [hr'] at hok <;>
          cases hok
        exact .cons (awaitBind_boundAs hu hx ha.left hr)
          (awaitBindAll_boundAs (he.tidy hu) (hx.trans he.ext) ha.right hr')
end

/-- An awaitable that has been bound is not bound elsewhere. -/
theorem BoundAs.not_foreign {a a' : Awaitable P.User} (h : BoundAs s a a') : ¬ a.Foreign s := by
  cases h with
  | timeout | wait | wake | call | sequential | comp => rintro ⟨d, hd | hd, -⟩ <;> cases hd
  | coroutine p hlt henv | ref o hlt henv =>
      rintro ⟨d, hd | hd, he⟩ <;> cases hd
      exact henv he
  | async a p hp =>
      rintro ⟨d, hd | hd, he⟩
      · cases hd
      · exact (hp d hd).2 he

/-- The process of a bound handle. -/
theorem BoundAs.mem_procs {a a' : Awaitable P.User} (h : BoundAs s a a')
    (hd : a.process s = some d) : d ∈ procs s a' := by
  cases h with
  | timeout | wait | wake | call | sequential | comp | async => cases hd
  | coroutine p hlt henv | ref o hlt henv =>
      cases hd
      exact List.mem_singleton.mpr rfl

/-- The process of a handle that `async` has started. -/
theorem BoundAs.mem_asyncs {a a' : Awaitable P.User} (h : BoundAs s a a')
    (hd : a.detached s = some d) : d ∈ asyncs a' := by
  cases h with
  | timeout | wait | wake | call | sequential | comp | coroutine | ref => cases hd
  | async a p hp =>
      rw [(hp d hd).1]
      exact List.mem_singleton.mpr rfl

theorem BoundAs.copied {a a' : Awaitable P.User} (h : BoundAs s a a') (p : Handle) (t : TokenId) :
    a' ≠ .coroutine p (some t) := by
  cases h <;> simp

/-- A process of a bound leaf that the leaf has started. -/
theorem BoundAs.starts {a a' : Awaitable P.User} (h : BoundAs s a a')
    (hleaf : ∀ c as, a' ≠ .comp c as) (hd : d ∈ procs s a') (hun : s.Unstarted d) :
    a.Starts s ∧ ∀ d', a.process s = some d' → d' = d := by
  cases h with
  | comp c c' as as' => exact absurd rfl (hleaf c' as')
  | timeout | wait | wake | async => cases hd
  | call | sequential => exact ⟨trivial, fun d' hd' => by cases hd'⟩
  | coroutine p hlt henv | ref o hlt henv =>
      obtain rfl := List.mem_singleton.mp hd
      have henv' := hun.resolve_right (Nat.not_le.mpr hlt)
      exact ⟨⟨_, rfl, henv'⟩, fun d' hd' => (Option.some.inj hd').symm⟩

/-! ### await_ready -/

mutual
/-- The leaves of an awaitable that has been asked whether it is ready. -/
def Awaitable.asked {U : Type} (skipped : Bool) : Awaitable U → List (Leaf U)
  | .comp c as => askedAll skipped c.ready as
  | a => [⟨a, skipped⟩]

def Awaitable.askedAll {U : Type} (skipped : Bool) (ready : List Bool) :
    List (Awaitable U) → List (Leaf U)
  | [] => []
  | a :: as => a.asked (skipped || ready.headD false) ++ askedAll skipped ready.tail as
end

/-- A leaf of the expression, and what has been made of it. -/
def Leaf.Becomes (s : State P) (l l' : Leaf P.User) : Prop :=
  l.skipped = l'.skipped ∧ BoundAs s l.awaitable l'.awaitable

/-- The awaitables that were made of the expression are as ready in `u` as it is in `s`. -/
structure ReadyAs (s u : State P) : Prop where
  now : u.now = s.now
  object : ∀ h, (u.objects h).1 = (s.objects h).1
  complete : ∀ d < s.nextCoro, (u.coros d).complete = (s.coros d).complete
  begun : ∀ d, s.nextCoro ≤ d → (u.coros d).env = .here → (u.coros d).complete = false

theorem ReadyAs.next {a : Awaitable P.User} (h : ReadyAs s u) : ReadyAs s (awaitReady a u).2.2 := by
  have he : Edits none 0 False u (awaitReady a u).2.2 := awaitReady_edits a u
  have hco := awaitReady_coros a u
  exact ⟨he.ext.now.trans h.now, fun o => (he.ext.object o).trans (h.object o),
    fun d hd => by rw [hco]; exact h.complete d hd, fun d hd => by rw [hco]; exact h.begun d hd⟩

mutual
/-- `await_ready` answers and notes what the state before the `co_await` tells. -/
theorem awaitReady_leaves {a a' : Awaitable P.User} {u : State P} (h : BoundAs s a a')
    (hb : Bound u a') (hu : ReadyAs s u) :
    (awaitReady a' u).1 = a.readyIn s ∧
      ∀ sk, List.Forall₂ (Leaf.Becomes s) (a.leaves s sk) ((awaitReady a' u).2.1.asked sk) := by
  cases h with
  | timeout relative time own priority tkn =>
      exact ⟨by simp [awaitReady, Awaitable.readyIn, hu.now],
        fun sk => .cons ⟨rfl, .timeout _ _ _ _ _⟩ .nil⟩
  | wait evt latency own priority tkn => exact ⟨rfl, fun sk => .cons ⟨rfl, .wait _ _ _ _ _⟩ .nil⟩
  | wake evt => exact ⟨rfl, fun sk => .cons ⟨rfl, .wake _⟩ .nil⟩
  | coroutine p hlt henv =>
      exact ⟨hu.complete p.coro hlt, fun sk => .cons ⟨rfl, .coroutine p hlt henv⟩ .nil⟩
  | ref o hlt henv =>
      refine ⟨?_, fun sk => .cons ⟨rfl, .ref o hlt henv⟩ .nil⟩
      simp only [awaitReady, Awaitable.readyIn, hu.object]
      exact hu.complete _ hlt
  | call f o p hge => exact ⟨hu.begun _ hge hb.2, fun sk => .cons ⟨rfl, .call f o p hge⟩ .nil⟩
  | sequential as o p hge =>
      exact ⟨hu.begun _ hge hb.2, fun sk => .cons ⟨rfl, .sequential as o p hge⟩ .nil⟩
  | async a p hp => exact ⟨rfl, fun sk => .cons ⟨rfl, .async a p hp⟩ .nil⟩
  | comp c c' as as' hcond has =>
      obtain ⟨hready, hleaves⟩ := awaitReadyAll_leaves has hb hu
      refine ⟨?_, fun sk => ?_⟩
      · simp only [awaitReady, Awaitable.readyIn, hready, hcond, has.length_eq]
      · exact hleaves sk

theorem awaitReadyAll_leaves {as as' : List (Awaitable P.User)} {u : State P}
    (h : List.Forall₂ (BoundAs s) as as') (hb : BoundAll u as') (hu : ReadyAs s u) :
    (awaitReadyAll as' u).1 = Awaitable.readiesIn s as ∧
      ∀ sk, List.Forall₂ (Leaf.Becomes s) (Awaitable.leavesAll s sk as)
        (Awaitable.askedAll sk (awaitReadyAll as' u).1 (awaitReadyAll as' u).2.1) := by
  cases h with
  | nil => exact ⟨rfl, fun sk => .nil⟩
  | @cons a a' as as' ha has =>
      have he : Edits none 0 False u (awaitReady a' u).2.2 := awaitReady_edits a' u
      obtain ⟨hr, hl⟩ := awaitReady_leaves ha hb.1 hu
      obtain ⟨hrs, hls⟩ := awaitReadyAll_leaves has (he.ext.boundAll hb.2) hu.next
      refine ⟨?_, fun sk => ?_⟩
      · simp only [awaitReadyAll, Awaitable.readiesIn, hr, hrs]
      · simp only [awaitReadyAll, Awaitable.leavesAll, Awaitable.askedAll, List.headD_cons,
          List.tail_cons, hr]
        exact List.rel_append (hl _) (hls sk)
end

/-! ### await_suspend -/

theorem Leaf.objects_append {U : Type} (ls ls' : List (Leaf U)) :
    objects (ls ++ ls') = objects ls ++ objects ls' := by
  induction ls with
  | nil => rfl
  | cons l ls ih =>
      obtain ⟨a, sk⟩ := l
      cases a <;> cases sk <;> simp [objects, ih]

mutual
theorem asked_skipped {U : Type} (a : Awaitable U) : ∀ l ∈ a.asked true, l.skipped = true := by
  cases a with
  | comp c as => exact askedAll_skipped c.ready as
  | timeout | wait | wake | coroutine | ref | call | sequential | async =>
      intro l hl
      rw [List.mem_singleton.mp hl]

theorem askedAll_skipped {U : Type} (ready : List Bool) (as : List (Awaitable U)) :
    ∀ l ∈ Awaitable.askedAll true ready as, l.skipped = true := by
  cases as with
  | nil => exact fun l hl => absurd hl List.not_mem_nil
  | cons a as =>
      intro l hl
      rcases List.mem_append.mp hl with hl | hl
      · rw [Bool.true_or] at hl
        exact asked_skipped a l hl
      · exact askedAll_skipped ready.tail as l hl
end

theorem Leaf.objects_skipped {U : Type} {ls : List (Leaf U)} (h : ∀ l ∈ ls, l.skipped = true) :
    objects ls = [] := by
  induction ls with
  | nil => rfl
  | cons l ls ih =>
      obtain ⟨a, sk⟩ := l
      obtain rfl : sk = true := h _ (List.mem_cons_self ..)
      have hnil := ih fun l hl => h l (List.mem_cons_of_mem _ hl)
      cases a <;> simpa [objects] using hnil

theorem State.Free.left {hs hs' : List HandleId} (h : s.Free (hs ++ hs')) : s.Free hs :=
  ⟨(List.nodup_append.mp h.1).1, fun o ho => h.2 o (List.mem_append_left _ ho)⟩

/-- In `u` the handle objects `hs` are being awaited, besides those that are in `s`. -/
structure Taken (s : State P) (hs : List HandleId) (u : State P) : Prop where
  object : ∀ h, (u.objects h).1 = (s.objects h).1
  free : ∀ h, (s.objects h).2 = none → h ∉ hs → (u.objects h).2 = none

theorem Taken.congr {hs : List HandleId} (h : Taken s hs u) (ho : u'.objects = u.objects) :
    Taken s hs u' :=
  ⟨fun o => by rw [ho]; exact h.object o, fun o => by rw [ho]; exact h.free o⟩

theorem Taken.installOn {hs : List HandleId} (h : Taken s hs u) (i : HandlerId)
    (t : Option TokenId) : Taken s hs (installOn u i t) :=
  h.congr (by cases t <;> rfl)

theorem Taken.setObject {hs : List HandleId} (h : Taken s hs u) (o : HandleId)
    (t : Option TokenId) (ho : u'.objects = Function.update u.objects o ((u.objects o).1, t)) :
    Taken s (hs ++ [o]) u' where
  object o' := by
    rw [ho]
    by_cases heq : o' = o
    · rw [heq, Function.update_self]
      exact h.object o
    · rw [Function.update_of_ne heq]
      exact h.object o'
  free o' hn hmem := by
    simp only [List.mem_append, List.mem_singleton, not_or] at hmem
    rw [ho, Function.update_of_ne hmem.2]
    exact h.free o' hn hmem.1

mutual
/-- No `await_suspend` throws where the handle objects are free. -/
theorem awaitSuspend_free (cd : Option CoroId) {hs : List HandleId} {a : Awaitable P.User}
    {u : State P} (hc : Leaf.Copied (a.asked false)) (h : Taken s hs u)
    (hf : s.Free (hs ++ Leaf.objects (a.asked false))) :
    ∃ a' u', awaitSuspend cd a u = (.ok a', u') ∧
      Taken s (hs ++ Leaf.objects (a.asked false)) u' := by
  have hsame : ∀ u' : State P, u'.objects = u.objects → Taken s (hs ++ []) u' := fun u' ho => by
    rw [List.append_nil]
    exact h.congr ho
  cases a with
  | timeout | wait | wake | call | sequential | async => exact ⟨_, _, rfl, hsame _ rfl⟩
  | coroutine p tkn =>
      cases tkn with
      | some t => exact absurd rfl (hc _ (List.mem_singleton.mpr rfl) p t)
      | none => exact ⟨_, _, rfl, hsame _ rfl⟩
  | ref o =>
      have hone : Leaf.objects ((Awaitable.ref (U := P.User) o).asked false) = [o] := rfl
      rw [hone] at hf ⊢
      have hnot : o ∉ hs := fun hm =>
        (List.nodup_append.mp hf.1).2.2 o hm o (List.mem_singleton.mpr rfl) rfl
      have hnone := h.free o (hf.2 o (by simp)) hnot
      refine ⟨.ref o, (u.newCompletion (u.objects o).1 cd).setObject o (some u.nextToken), ?_, ?_⟩
      · simp only [awaitSuspend, State.suspendHandle, hnone]
      · exact h.setObject o (some u.nextToken) rfl
  | comp c as =>
      obtain ⟨as', u', hok, htaken⟩ := awaitSuspendAll_free cd u.nextHandler
        (u := u.newHandler c as.length cd) hc (h.congr rfl) hf
      exact ⟨.comp { c with tkn := some u.nextToken } as', u',
        by simp only [awaitSuspend, hok], htaken⟩

theorem awaitSuspendAll_free (cd : Option CoroId) (i : HandlerId) {hs : List HandleId}
    {ready : List Bool} {as : List (Awaitable P.User)} {u : State P}
    (hc : Leaf.Copied (Awaitable.askedAll false ready as)) (h : Taken s hs u)
    (hf : s.Free (hs ++ Leaf.objects (Awaitable.askedAll false ready as))) :
    ∃ as' u', awaitSuspendAll cd i ready as u = (.ok as', u') ∧
      Taken s (hs ++ Leaf.objects (Awaitable.askedAll false ready as)) u' := by
  cases as with
  | nil => exact ⟨[], u, rfl, by simpa [Awaitable.askedAll, Leaf.objects] using h⟩
  | cons a as =>
      have hcl : Leaf.Copied (a.asked (ready.headD false)) := fun l hl =>
        hc l (List.mem_append_left _ hl)
      have hcr : Leaf.Copied (Awaitable.askedAll false ready.tail as) := fun l hl =>
        hc l (List.mem_append_right _ hl)
      simp only [Awaitable.askedAll, Bool.false_or, Leaf.objects_append] at hf ⊢
      simp only [awaitSuspendAll]
      cases hready : ready.headD false with
      | true =>
          have hnil := Leaf.objects_skipped (asked_skipped a)
          simp only [hready, hnil, List.nil_append] at hf ⊢
          obtain ⟨as', u', hok, htaken⟩ := awaitSuspendAll_free cd i hcr h hf
          exact ⟨a :: as', u', by simp only [hok, if_true], htaken⟩
      | false =>
          simp only [hready] at hcl hf ⊢
          rw [← List.append_assoc] at hf ⊢
          obtain ⟨a', u1, hok, htaken⟩ := awaitSuspend_free cd hcl h hf.left
          obtain ⟨as', u', hok', htaken'⟩ := awaitSuspendAll_free cd i hcr
            (htaken.installOn i (awaitToken u1 a')) hf
          exact ⟨a' :: as', u', by simp [hok, hok'], htaken'⟩
end

mutual
/-- The process of a leaf that suspends has its `await_suspend` called. -/
theorem awaitSuspend_reaches (cd : Option CoroId) {hs : List HandleId} {a : Awaitable P.User}
    {u : State P} {pre post : List (Leaf P.User)} {l : Awaitable P.User}
    (hc : Leaf.Copied (a.asked false)) (h : Taken s hs u)
    (hsplit : a.asked false = pre ++ ⟨l, false⟩ :: post)
    (hf : s.Free (hs ++ Leaf.objects (pre ++ [⟨l, false⟩]))) (hd : d ∈ procs s l) :
    d ∈ reached cd a u := by
  have hleaf : ∀ {b : Awaitable P.User}, [(⟨b, false⟩ : Leaf P.User)] = pre ++ ⟨l, false⟩ :: post →
      pre = [] ∧ b = l := by
    intro b hb
    cases pre with
    | nil => cases hb; exact ⟨rfl, rfl⟩
    | cons x pre => simp at hb
  cases a with
  | timeout | wait | wake | call | sequential | async =>
      obtain ⟨-, rfl⟩ := hleaf hsplit
      cases hd
  | coroutine p tkn =>
      obtain ⟨-, rfl⟩ := hleaf hsplit
      cases tkn with
      | some t => exact absurd rfl (hc _ (List.mem_singleton.mpr rfl) p t)
      | none => exact hd
  | ref o =>
      obtain ⟨rfl, rfl⟩ := hleaf hsplit
      have hone : Leaf.objects ([] ++ [(⟨Awaitable.ref o, false⟩ : Leaf P.User)]) = [o] := rfl
      rw [hone] at hf
      have hnot : o ∉ hs := fun hm =>
        (List.nodup_append.mp hf.1).2.2 o hm o (List.mem_singleton.mpr rfl) rfl
      have hnone := h.free o (hf.2 o (by simp)) hnot
      simpa [reached, procs, hnone, h.object o] using hd
  | comp c as =>
      exact awaitSuspendAll_reaches cd u.nextHandler hc
        (show Taken s _ (u.newHandler c as.length cd) from h.congr rfl) hsplit hf hd

theorem awaitSuspendAll_reaches (cd : Option CoroId) (i : HandlerId) {hs : List HandleId}
    {ready : List Bool} {as : List (Awaitable P.User)} {u : State P}
    {pre post : List (Leaf P.User)} {l : Awaitable P.User}
    (hc : Leaf.Copied (Awaitable.askedAll false ready as)) (h : Taken s hs u)
    (hsplit : Awaitable.askedAll false ready as = pre ++ ⟨l, false⟩ :: post)
    (hf : s.Free (hs ++ Leaf.objects (pre ++ [⟨l, false⟩]))) (hd : d ∈ procs s l) :
    d ∈ reachedAll cd i ready as u := by
  cases as with
  | nil => simp [Awaitable.askedAll] at hsplit
  | cons a as =>
      have hcl : Leaf.Copied (a.asked (ready.headD false)) := fun l hl =>
        hc l (List.mem_append_left _ hl)
      have hcr : Leaf.Copied (Awaitable.askedAll false ready.tail as) := fun l hl =>
        hc l (List.mem_append_right _ hl)
      simp only [Awaitable.askedAll, Bool.false_or] at hsplit
      simp only [reachedAll]
      cases hready : ready.headD false with
      | true =>
          rw [hready] at hsplit
          have hskip := asked_skipped a
          -- the leaf is not one of those that are skipped
          obtain ⟨mid, rfl, hrest⟩ : ∃ mid, pre = a.asked true ++ mid ∧
              Awaitable.askedAll false ready.tail as = mid ++ ⟨l, false⟩ :: post := by
            rcases List.append_eq_append_iff.mp hsplit with ⟨mid, hpre, hrest⟩ | ⟨mid, ha, hrest⟩
            · exact ⟨mid, hpre, hrest⟩
            · cases mid with
              | nil => exact ⟨[], by simpa using ha.symm, by simpa using hrest.symm⟩
              | cons x mid =>
                  obtain ⟨rfl, -⟩ := List.cons.inj hrest
                  have := hskip ⟨l, false⟩ (by rw [ha]; simp)
                  cases this
          rw [List.append_assoc, Leaf.objects_append, Leaf.objects_skipped hskip,
            List.nil_append] at hf
          simpa using awaitSuspendAll_reaches cd i hcr h hrest hf hd
      | false =>
          rw [hready] at hsplit hcl
          rcases List.append_eq_append_iff.mp hsplit with ⟨mid, rfl, hrest⟩ | ⟨mid, ha, hrest⟩
          · rw [List.append_assoc, Leaf.objects_append, ← List.append_assoc] at hf
            obtain ⟨a', u1, hok, htaken⟩ := awaitSuspend_free cd hcl h hf.left
            have hin := awaitSuspendAll_reaches cd i hcr
              (htaken.installOn i (awaitToken u1 a')) hrest hf hd
            simp [hok, hin]
          · cases mid with
            | nil =>
                obtain rfl : a.asked false = pre := by simpa using ha
                have hrest : Awaitable.askedAll false ready.tail as = [] ++ ⟨l, false⟩ :: post := by
                  simpa using hrest.symm
                rw [Leaf.objects_append, ← List.append_assoc] at hf
                obtain ⟨a', u1, hok, htaken⟩ := awaitSuspend_free cd hcl h hf.left
                have hin := awaitSuspendAll_reaches cd i hcr
                  (htaken.installOn i (awaitToken u1 a')) hrest hf hd
                simp [hok, hin]
            | cons x mid =>
                obtain ⟨rfl, -⟩ := List.cons.inj hrest
                have hin := awaitSuspend_reaches cd hcl h ha hf hd
                cases hok : awaitSuspend cd a u with
                | mk r u1 => cases r <;> simp [hin]
end

/-! ### await_bind that throws -/

theorem Edit.elsewhere_old {cd : Option CoroId} {n : TokenId} {nn : Prop} (he : Edit cd n nn s u)
    (h : (u.coros d).env = .elsewhere) : (s.coros d).env = .elsewhere := by
  cases he with
  | newCoro f o =>
      by_cases hd : d = s.nextCoro
      · subst hd
        simp [State.newCoro, CoroData.called] at h
      · simpa [State.newCoro, Function.update_of_ne hd] using h
  | startCoro c priority henv =>
      by_cases hd : d = c
      · subst hd
        simp [State.startCoro, State.log, State.scheduleToken, State.newToken, State.setCoro,
          CoroData.started] at h
      · simpa [State.startCoro, State.log, State.scheduleToken, State.newToken, State.setCoro,
          Function.update_of_ne hd] using h
  | newCompletion p cd' =>
      by_cases hd : d = p.coro
      · subst hd
        simpa [State.newCompletion, State.newToken, State.setCoro, CoroData.completionToken] using h
      · simpa [State.newCompletion, State.newToken, State.setCoro, Function.update_of_ne hd] using h
  | wake evt => simpa [State.wake] using h
  | timeout | newWaiter | newHandler | install | setObject => exact h

theorem Edits.elsewhere_old {cd : Option CoroId} {n : TokenId} {nn : Prop}
    (he : Edits cd n nn s u) (h : (u.coros d).env = .elsewhere) : (s.coros d).env = .elsewhere := by
  induction he with
  | refl => exact h
  | tail _ he ih => exact ih (he.elsewhere_old h)

mutual
/-- The leaves of a bound awaitable, whatever it was asked. -/
theorem BoundAs.leaves {a a' : Awaitable P.User} (h : BoundAs s a a') (sk sk' : Bool) :
    List.Forall₂ (fun k k' => BoundAs s k.awaitable k'.awaitable) (a.leaves s sk)
      (a'.asked sk') := by
  cases h with
  | comp c c' as as' hcond has => exact boundAll_leaves has sk sk' c'.ready
  | timeout relative time own priority tkn => exact .cons (.timeout _ _ _ _ _) .nil
  | wait evt latency own priority tkn => exact .cons (.wait _ _ _ _ _) .nil
  | wake evt => exact .cons (.wake _) .nil
  | coroutine p hlt henv => exact .cons (.coroutine p hlt henv) .nil
  | ref o hlt henv => exact .cons (.ref o hlt henv) .nil
  | call f o p hge => exact .cons (.call f o p hge) .nil
  | sequential as o p hge => exact .cons (.sequential as o p hge) .nil
  | async a p hp => exact .cons (.async a p hp) .nil

theorem boundAll_leaves {as as' : List (Awaitable P.User)} (h : List.Forall₂ (BoundAs s) as as')
    (sk sk' : Bool) (ready : List Bool) :
    List.Forall₂ (fun k k' => BoundAs s k.awaitable k'.awaitable) (Awaitable.leavesAll s sk as)
      (Awaitable.askedAll sk' ready as') := by
  cases h with
  | nil => exact .nil
  | cons ha has => exact List.rel_append (ha.leaves _ _) (boundAll_leaves has sk sk' ready.tail)
end

mutual
/-- A throwing `await_bind` has come to a leaf that is bound elsewhere, and has bound the leaves
before it. -/
theorem awaitBind_throws {priority : Int} {sk : Bool} {a : Awaitable P.User} {e : Exn P.Error}
    {u u' : State P} (hu : u.Tidy False) (he : Edits none 0 False s u)
    (ha : Leaf.Known s (a.leaves s sk)) (herr : awaitBind priority a u = (.error e, u')) :
    ∃ pre l post, a.leaves s sk = pre ++ l :: post ∧ l.awaitable.Foreign s ∧
      List.Forall₂ (fun k k' => BoundAs s k.awaitable k'.awaitable) pre
        (Awaitable.askedAll true [] (boundBeforeThrow priority a u)) := by
  have hobj := (Edits.ext he).object
  cases a with
  | timeout | wait | wake | call | sequential => cases herr
  | coroutine p tkn =>
      simp only [awaitBind] at herr
      rcases hr : u.bind_ p.coro priority with ⟨_ | _, u1⟩ <;> rw [hr] at herr <;> cases herr
      exact ⟨[], _, [], rfl,
        ⟨p.coro, .inl rfl, Edits.elsewhere_old he (bind_elsewhere (by rw [hr]))⟩, .nil⟩
  | ref o =>
      simp only [awaitBind, hobj o] at herr
      rcases hr : u.bind_ (s.objects o).1.coro priority with ⟨_ | _, u1⟩ <;> rw [hr] at herr <;>
        cases herr
      exact ⟨[], _, [], rfl,
        ⟨_, .inl rfl, Edits.elsewhere_old he (bind_elsewhere (by rw [hr]))⟩, .nil⟩
  | async a =>
      simp only [awaitBind] at herr
      rcases hr : (toHandle u a).2.detach (toHandle u a).1 priority with ⟨_ | _, u1⟩ <;>
        rw [hr] at herr <;> cases herr
      have henv := detach_elsewhere (by rw [hr])
      refine ⟨[], _, [], rfl, ?_, .nil⟩
      cases a with
      | coroutine p tkn => exact ⟨p.coro, .inr rfl, Edits.elsewhere_old he henv⟩
      | ref o =>
          simp only [toHandle, hobj o] at henv
          exact ⟨_, .inr rfl, Edits.elsewhere_old he henv⟩
      | timeout | wait | wake | call | sequential | async | comp =>
          simp [toHandle, State.newCoro, CoroData.called] at henv
  | comp c as =>
      simp only [awaitBind] at herr
      rcases hr : awaitBindAll (resolvePriority c.priority priority) as u with ⟨_ | as', u1⟩ <;>
        rw [hr] at herr <;> cases herr
      exact awaitBindAll_throws hu he ha hr

theorem awaitBindAll_throws {priority : Int} {sk : Bool} {as : List (Awaitable P.User)}
    {e : Exn P.Error} {u u' : State P} (hu : u.Tidy False) (he : Edits none 0 False s u)
    (ha : Leaf.Known s (Awaitable.leavesAll s sk as))
    (herr : awaitBindAll priority as u = (.error e, u')) :
    ∃ pre l post, Awaitable.leavesAll s sk as = pre ++ l :: post ∧ l.awaitable.Foreign s ∧
      List.Forall₂ (fun k k' => BoundAs s k.awaitable k'.awaitable) pre
        (Awaitable.askedAll true [] (boundBeforeThrowAll priority as u)) := by
  cases as with
  | nil => cases herr
  | cons a as =>
      simp only [awaitBindAll] at herr
      have he1 : Edits none 0 False u _ := awaitBind_edits priority a u hu fun hf => hf.elim
      simp only [boundBeforeThrowAll, Awaitable.leavesAll]
      rcases hr : awaitBind priority a u with ⟨e1 | a1, u1⟩ <;> rw [hr] at herr he1
      · cases herr
        obtain ⟨pre, l, post, hsplit, hl, hpre⟩ := awaitBind_throws hu he ha.left hr
        exact ⟨pre, l, post ++ Awaitable.leavesAll s sk as, by rw [hsplit]; simp, hl, hpre⟩
      · simp only at herr
        rcases hr' : awaitBindAll priority as u1 with ⟨e2 | as1, u2⟩ <;> rw [hr'] at herr <;>
          cases herr
        obtain ⟨pre, l, post, hsplit, hl, hpre⟩ :=
          awaitBindAll_throws (he1.tidy hu) (he.trans he1) ha.right hr'
        have ha1 := awaitBind_boundAs hu (Edits.ext he) ha.left hr
        refine ⟨_ ++ pre, l, post, by rw [hsplit, List.append_assoc], hl, ?_⟩
        exact List.rel_append (ha1.leaves _ _) hpre
end

/-! ### Processes of the leaves -/

mutual
theorem asked_leaf {U : Type} (sk : Bool) (a : Awaitable U) :
    ∀ l ∈ a.asked sk, ∀ c as, l.awaitable ≠ .comp c as := by
  cases a with
  | comp c as => exact askedAll_leaf sk c.ready as
  | timeout | wait | wake | coroutine | ref | call | sequential | async =>
      intro l hl c as
      rw [List.mem_singleton.mp hl]
      simp

theorem askedAll_leaf {U : Type} (sk : Bool) (ready : List Bool) (as : List (Awaitable U)) :
    ∀ l ∈ Awaitable.askedAll sk ready as, ∀ c as, l.awaitable ≠ .comp c as := by
  cases as with
  | nil => exact fun l hl => absurd hl List.not_mem_nil
  | cons a as =>
      intro l hl
      rcases List.mem_append.mp hl with hl | hl
      · exact asked_leaf _ a l hl
      · exact askedAll_leaf sk ready.tail as l hl
end

mutual
theorem procs_asked (s : State P) (sk : Bool) (a : Awaitable P.User) :
    procs s a = (a.asked sk).flatMap fun l => procs s l.awaitable := by
  cases a with
  | comp c as => exact procsAll_asked s sk c.ready as
  | timeout | wait | wake | coroutine | ref | call | sequential | async =>
      simp [Awaitable.asked]

theorem procsAll_asked (s : State P) (sk : Bool) (ready : List Bool)
    (as : List (Awaitable P.User)) :
    procsAll s as = (Awaitable.askedAll sk ready as).flatMap fun l => procs s l.awaitable := by
  cases as with
  | nil => rfl
  | cons a as =>
      rw [Awaitable.askedAll, List.flatMap_append, ← procs_asked, ← procsAll_asked]
      rfl
end

mutual
theorem asyncs_asked (sk : Bool) (a : Awaitable P.User) :
    asyncs a = (a.asked sk).flatMap fun l => asyncs (P := P) l.awaitable := by
  cases a with
  | comp c as => exact asyncsAll_asked sk c.ready as
  | timeout | wait | wake | coroutine | ref | call | sequential | async =>
      simp [Awaitable.asked]

theorem asyncsAll_asked (sk : Bool) (ready : List Bool) (as : List (Awaitable P.User)) :
    asyncsAll as =
      (Awaitable.askedAll sk ready as).flatMap fun l => asyncs (P := P) l.awaitable := by
  cases as with
  | nil => rfl
  | cons a as =>
      rw [Awaitable.askedAll, List.flatMap_append, ← asyncs_asked, ← asyncsAll_asked]
      rfl
end

/-! ### Registered awaits -/

/-- A process that is created is not complete. -/
theorem Edit.begun {cd : Option CoroId} {n : TokenId} {nn : Prop} (he : Edit cd n nn s u)
    (h : (s.coros d).env ≠ .elsewhere → (s.coros d).complete = false)
    (henv : (u.coros d).env ≠ .elsewhere) : (u.coros d).complete = false := by
  cases he with
  | newCoro f o =>
      by_cases hd : d = s.nextCoro
      · subst hd
        simp [State.newCoro, CoroData.called, CoroData.complete]
      · simp only [State.newCoro, Function.update_of_ne hd] at henv ⊢
        exact h henv
  | startCoro c priority hc =>
      by_cases hd : d = c
      · subst hd
        simpa [State.startCoro, State.log, State.scheduleToken, State.newToken, State.setCoro,
          CoroData.started, CoroData.complete] using h (by simp [hc])
      · simp only [State.startCoro, State.log, State.scheduleToken, State.newToken, State.setCoro,
          Function.update_of_ne hd] at henv ⊢
        exact h henv
  | newCompletion p cd' =>
      by_cases hd : d = p.coro
      · subst hd
        simp only [State.newCompletion, State.newToken, State.setCoro, Function.update_self,
          CoroData.completionToken] at henv ⊢
        exact h henv
      · simp only [State.newCompletion, State.newToken, State.setCoro,
          Function.update_of_ne hd] at henv ⊢
        exact h henv
  | wake evt => simpa [State.wake] using h (by simpa [State.wake] using henv)
  | timeout | newWaiter | newHandler | install | setObject => exact h henv

theorem Edits.readyAs (hs : s.Tidy False) (he : Edits none 0 False s u) : ReadyAs s u where
  now := (Edits.ext he).now
  object := (Edits.ext he).object
  complete _ hd := (Edits.ext he).complete hd
  begun d hd henv := by
    have hbegun : (u.coros d).env ≠ .elsewhere → (u.coros d).complete = false := by
      refine Edits.invariant (I := fun u => (u.coros d).env ≠ .elsewhere →
        (u.coros d).complete = false) (fun _ _ h he => he.begun h) he fun h => ?_
      rw [hs.fresh d hd] at h
      exact absurd rfl h
    exact hbegun (by simp [henv])

/-- A position in a list, and the one that corresponds to it. -/
theorem forall₂_append_left {α β : Type} {R : α → β → Prop} {xs ys : List α} {zs : List β}
    (h : List.Forall₂ R (xs ++ ys) zs) :
    ∃ xs' ys', zs = xs' ++ ys' ∧ List.Forall₂ R xs xs' ∧ List.Forall₂ R ys ys' := by
  induction xs generalizing zs with
  | nil => exact ⟨[], zs, rfl, .nil, h⟩
  | cons x xs ih =>
      cases h with
      | @cons _ z _ zs hx hxs =>
          obtain ⟨xs', ys', rfl, h1, h2⟩ := ih hxs
          exact ⟨z :: xs', ys', rfl, .cons hx h1, h2⟩

theorem forall₂_mem_right {α β : Type} {R : α → β → Prop} {xs : List α} {zs : List β}
    (h : List.Forall₂ R xs zs) {z : β} (hz : z ∈ zs) :
    ∃ pre x post pre' post', xs = pre ++ x :: post ∧ zs = pre' ++ z :: post' ∧
      List.Forall₂ R pre pre' ∧ R x z := by
  induction h with
  | nil => cases hz
  | @cons x z' xs zs hx hxs ih =>
      rcases List.mem_cons.mp hz with rfl | hz
      · exact ⟨[], x, xs, [], zs, rfl, rfl, .nil, hx⟩
      · obtain ⟨pre, x', post, pre', post', rfl, rfl, hpre, hR⟩ := ih hz
        exact ⟨x :: pre, x', post, z' :: pre', post', rfl, rfl, .cons hx hpre, hR⟩

theorem forall₂_mem_left {α β : Type} {R : α → β → Prop} {xs : List α} {zs : List β}
    (h : List.Forall₂ R xs zs) {x : α} (hx : x ∈ xs) : ∃ z ∈ zs, R x z := by
  obtain ⟨pre, z, post, -, -, rfl, -, -, hR⟩ := forall₂_mem_right (R := fun z x => R x z) h.flip hx
  exact ⟨z, by simp, hR⟩

theorem Leaf.objects_becomes {ls ls' : List (Leaf P.User)}
    (h : List.Forall₂ (Leaf.Becomes s) ls ls') : objects ls' = objects ls := by
  induction h with
  | nil => rfl
  | @cons l l' ls ls' hl hls ih =>
      obtain ⟨a, sk⟩ := l
      obtain ⟨a', sk'⟩ := l'
      obtain ⟨hsk, hb⟩ := hl
      cases hsk
      cases hb <;> cases sk <;> simp [objects, ih]

section
variable {ls ls' : List (Leaf P.User)} {R : Leaf P.User → Leaf P.User → Prop}
  (hR : ∀ k k', R k k' → BoundAs s k.awaitable k'.awaitable)
include hR

/-- A process that a bound leaf has started. -/
theorem BoundAs.mem_starts (h : List.Forall₂ R ls ls')
    (hleaf : ∀ l ∈ ls', ∀ c as, l.awaitable ≠ .comp c as)
    (hd : d ∈ ls'.flatMap fun l => procs s l.awaitable) (hun : s.Unstarted d) :
    ∃ pre l post pre' l' post', ls = pre ++ l :: post ∧ ls' = pre' ++ l' :: post' ∧
      List.Forall₂ R pre pre' ∧ R l l' ∧ d ∈ procs s l'.awaitable ∧ l.awaitable.Starts s ∧
      ∀ d', l.awaitable.process s = some d' → d' = d := by
  obtain ⟨l', hl', hd'⟩ := List.mem_flatMap.mp hd
  obtain ⟨pre, l, post, pre', post', rfl, rfl, hpre, hl⟩ := forall₂_mem_right h hl'
  exact ⟨pre, l, post, pre', l', post', rfl, rfl, hpre, hl, hd',
    (hR _ _ hl).starts (hleaf l' hl') hd' hun⟩

theorem BoundAs.mem_detached (h : List.Forall₂ R ls ls') {l : Leaf P.User} (hl : l ∈ ls)
    (hd : l.awaitable.detached s = some d) :
    d ∈ ls'.flatMap fun l => asyncs (P := P) l.awaitable := by
  obtain ⟨l', hl', hl⟩ := forall₂_mem_left h hl
  exact List.mem_flatMap.mpr ⟨l', hl', (hR _ _ hl).mem_asyncs hd⟩

end

/-- A leaf that suspends, as `await_suspend` meets it. -/
theorem Leaf.Suspends.becomes {pre pre' : List (Leaf P.User)} {l l' : Leaf P.User}
    (h : l.Suspends s pre) (hpre : List.Forall₂ (Leaf.Becomes s) pre pre')
    (hl : Leaf.Becomes s l l') : l' = ⟨l'.awaitable, false⟩ ∧
      s.Free ([] ++ Leaf.objects (pre' ++ [⟨l'.awaitable, false⟩])) := by
  have heq : l' = ⟨l'.awaitable, false⟩ := by rw [← hl.1.symm.trans h.1]
  refine ⟨heq, ?_⟩
  rw [List.nil_append, ← heq, Leaf.objects_becomes (List.rel_append hpre (.cons hl .nil))]
  exact h.2

/-- The state and the expression tell whether a `co_await` covers the processes that it starts. -/
theorem Registers.covered {c : CoroId} {a : Awaitable P.User} (hs : s.Tidy False)
    (h : Registers s ((a.wrap s).leaves s ((a.wrap s).readyIn s))) : Covered s c a := by
  have hknown : Leaf.Known s ((a.wrap s).leaves s ((a.wrap s).readyIn s)) :=
    ⟨wrap_copied s _ a, h.exists_process⟩
  have he1 : Edits none 0 False s _ :=
    awaitBind_edits (s.coros c).priority (a.wrap s) s hs fun hf => hf.elim
  unfold Covered
  rcases hr : awaitBind (s.coros c).priority (a.wrap s) s with ⟨e | a1, s1⟩ <;> rw [hr] at he1
  · intro d hd hun
    obtain ⟨pre, l, post, hsplit, hl, hpre⟩ := awaitBind_throws hs .refl hknown hr
    rw [procsAll_congr (Edits.ext he1).object, procsAll_asked s true []] at hd
    obtain ⟨pre1, k, post1, -, -, -, rfl, -, -, -, -, hst, hk⟩ :=
      BoundAs.mem_starts (fun _ _ h => h) hpre (askedAll_leaf _ _ _) hd hun
    obtain ⟨d', hd', j, hj, hdet⟩ := h.foreign _ l post hsplit hl (fun k hk => by
      obtain ⟨k', -, hb⟩ := forall₂_mem_left hpre hk
      exact hb.not_foreign) k (by simp) hst
    obtain rfl := hk d' hd'
    rw [asyncsAll_asked true []]
    exact BoundAs.mem_detached (fun _ _ h => h) hpre hj hdet
  · have hb := awaitBind_boundAs hs (Ext.refl 0 s) hknown hr
    have hbound : Bound s1 a1 := (awaitBind_bound hs (fun h => h.elim) hr).1
    obtain ⟨hready, hleaves⟩ := awaitReady_leaves hb hbound (Edits.readyAs hs he1)
    have he2 : Edits none 0 False s1 _ := awaitReady_edits a1 s1
    have hobj2 : (awaitReady a1 s1).2.2.objects = s.objects := by
      have hobj1 := awaitBind_objects (s.coros c).priority (a.wrap s) s
      rw [hr] at hobj1
      exact (awaitReady_objects a1 s1).trans hobj1
    rcases hr2 : awaitReady a1 s1 with ⟨ready, a2, s2⟩
    rw [hr2] at hready hleaves hobj2
    obtain rfl : ready = (a.wrap s).readyIn s := hready
    have hls := hleaves ((a.wrap s).readyIn s)
    have hprocs : procs s2 a2 = procs s a2 := procs_congr (fun o => by rw [hobj2]) a2
    -- a process that is started is an async's, or its leaf suspends
    have hcase : ∀ d ∈ procs s2 a2, s.Unstarted d → d ∈ asyncs a2 ∨
        ∃ pre k post, a2.asked ((a.wrap s).readyIn s) = pre ++ ⟨k, false⟩ :: post ∧
          s.Free ([] ++ Leaf.objects (pre ++ [⟨k, false⟩])) ∧ d ∈ procs s k := by
      intro d hd hun
      rw [hprocs, procs_asked s ((a.wrap s).readyIn s)] at hd
      obtain ⟨pre, l, post, pre', l', post', hsplit, hsplit', hpre, hl, hd, hst, hk⟩ :=
        BoundAs.mem_starts (fun _ _ h => h.2) hls (asked_leaf _ _) hd hun
      have hnf : ∀ l ∈ (a.wrap s).leaves s ((a.wrap s).readyIn s), ¬ l.awaitable.Foreign s := by
        intro l hl
        obtain ⟨l', -, hb⟩ := forall₂_mem_left hls hl
        exact hb.2.not_foreign
      rcases h.suspends hnf pre l post hsplit hst with hsus | ⟨d', hd', hdet | hsus⟩
      · obtain ⟨heq, hfree⟩ := hsus.becomes hpre hl
        exact .inr ⟨pre', l'.awaitable, post', heq ▸ hsplit', hfree, hd⟩
      · obtain rfl := hk d' hd'
        obtain ⟨k, hk, hdet⟩ := hdet
        rw [asyncs_asked ((a.wrap s).readyIn s)]
        exact .inl (BoundAs.mem_detached (fun _ _ h => h.2) hls hk hdet)
      · obtain rfl := hk d' hd'
        obtain ⟨pre1, k, post1, hsplit1, hproc, hsus⟩ := hsus
        rw [hsplit1] at hls
        obtain ⟨pre1', rest, hasked, hpre1, hrest⟩ := forall₂_append_left hls
        cases hrest with
        | @cons _ k' _ post1' hk hpost =>
            obtain ⟨heq, hfree⟩ := hsus.becomes hpre1 hk
            exact .inr ⟨pre1', k'.awaitable, post1', heq ▸ hasked, hfree, hk.2.mem_procs hproc⟩
    have htaken : Taken s [] s2 :=
      ⟨fun o => by rw [hobj2], fun o ho _ => by rw [hobj2]; exact ho⟩
    cases hskip : (a.wrap s).readyIn s with
    | true =>
        rw [hskip] at hr2
        simp only [hr2]
        refine fun d hd hun => (hcase d hd hun).resolve_right ?_
        rintro ⟨pre, k, post, hasked, -, -⟩
        rw [hskip] at hasked
        have hk := asked_skipped a2 ⟨k, false⟩ (by rw [hasked]; simp)
        cases hk
    | false =>
        rw [hskip] at hr2
        simp only [hr2]
        refine fun d hd hun => (hcase d hd hun).imp_right ?_
        rintro ⟨pre, k, post, hasked, hfree, hd⟩
        rw [hskip] at hasked hls
        refine awaitSuspend_reaches s2.current (fun l hl p t => ?_) htaken hasked hfree hd
        obtain ⟨-, l', -, -, -, -, -, -, hb⟩ := forall₂_mem_right hls hl
        exact hb.2.copied p t

/-- Handles that are not bound elsewhere, objects that nobody awaits, and no skipped leaf that
starts a process. -/
theorem Registers.of_leaves {ls : List (Leaf P.User)} (hfree : s.Free (Leaf.objects ls))
    (h : ∀ l ∈ ls, (∀ d, l.awaitable.process s = some d ∨ l.awaitable.detached s = some d →
      d < s.nextCoro ∧ (s.coros d).env ≠ .elsewhere) ∧
      (l.awaitable.Starts s → l.skipped = false)) : Registers s ls where
  exists_process l hl d hd := ((h l hl).1 d hd).1
  foreign pre l post hls := by
    rintro ⟨d, hd, henv⟩
    exact absurd henv ((h l (by simp [hls])).1 d hd).2
  suspends _ pre l post hls hst := by
    refine .inl ⟨(h l (by simp [hls])).2 hst, ?_⟩
    rw [hls, List.append_cons, Leaf.objects_append] at hfree
    exact hfree.left

end Cxxdes
