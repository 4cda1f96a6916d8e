-- SUMMARY: Start tokens and leaf tokens have the priority of what encloses them, if no object keeps another one from an earlier await.
import Cxxdes.Logic.Transition
import Cxxdes.Priority.Objects

/-!
# Inherited priorities

An object that is left at `inherit` stores the priority it is bound with first, and has it for
good. `Meets` says that it inherits the same now: then binding changes the stored priorities
only to what they should be (`Later`), and after it they are what they should be (`Resolved`).
-/

namespace Cxxdes.Priority

variable {s s' t : State} {want : ObjectId → Int} {b : Binder} {a : Awaitable}
  {as : List Awaitable} {o : ObjectId} {c : CoroId} {p : Handle} {priority : Int} {tkn : Token}
  {coroData : Option CoroId}

/-! ### The rule -/

theorem resolvePriority_inherit : resolvePriority PriorityConsts.inherit priority = priority :=
  if_pos rfl

theorem resolvePriority_explicit {given : Int} (h : given ≠ PriorityConsts.inherit) :
    resolvePriority given priority = given := if_neg h

theorem Binder.priority_within (b : Binder) (given : Int) :
    (b.within given).priority = resolvePriority given b.priority := by
  unfold Binder.priority Binder.within resolvePriority
  rw [List.find?_cons]
  cases Decidable.em (given = PriorityConsts.inherit) with
  | inl h => simp [h]
  | inr h => simp [h]

@[simp] theorem Prio.bind_given {x : Prio} : (x.bind priority).given = x.given := rfl

theorem Prio.bind_explicit {x : Prio} (h : x.given ≠ PriorityConsts.inherit) :
    (x.bind priority).priority = x.given := (x.bind priority).kept h

/-! ### The condition -/

/-- An object that is left at `inherit` has not been bound, or has been bound with the priority that
it inherits now. That is the same everywhere in the awaitable. -/
def State.Fits (s : State) (want : ObjectId → Int) (b : Binder) (o : ObjectId) : Prop :=
  (s.prios o).given = PriorityConsts.inherit → want o = b.priority ∧
    ((s.prios o).priority = PriorityConsts.inherit ∨ (s.prios o).priority = want o)

mutual
/-- `Fits` for all objects with a priority in an awaitable, in which there is no `slice`. -/
def Meets (want : ObjectId → Int) (s : State) (b : Binder) : Awaitable → Prop
  | .leaf o _ => s.Fits want b o
  | .comp o _ _ as => s.Fits want b o ∧ MeetsAll want s (b.within (s.prios o).given) as
  | .slice => False
  | .ref a => Meets want s b a
  | _ => True

def MeetsAll (want : ObjectId → Int) (s : State) (b : Binder) : List Awaitable → Prop
  | [] => True
  | a :: as => Meets want s b a ∧ MeetsAll want s b as
end

/-- What a process awaits inherits the priorities `want`. -/
def Op.SettledAt (want : ObjectId → Int) (s : State) : Op → Prop
  | .coAwait c a => Meets want s ⟨[], (s.coros c).prio.priority⟩ a
  | _ => True

/-- Every object that a process awaits, and that has been bound before, inherits what it has
inherited then, and no object is a `slice`. -/
def Op.Settled (s : State) (op : Op) : Prop := ∃ want, op.SettledAt want s

instance (s : State) (want : ObjectId → Int) (b : Binder) (o : ObjectId) :
    Decidable (s.Fits want b o) := by
  unfold State.Fits
  infer_instance

mutual
instance decideMeets (want : ObjectId → Int) (s : State) :
    (b : Binder) → (a : Awaitable) → Decidable (Meets want s b a)
  | b, .leaf o _ => inferInstanceAs (Decidable (s.Fits want b o))
  | _, .wake => .isTrue trivial
  | _, .coroutine _ => .isTrue trivial
  | _, .async _ => .isTrue trivial
  | b, .comp o _ _ as =>
    have := decideMeetsAll want s (b.within (s.prios o).given) as
    inferInstanceAs (Decidable (_ ∧ _))
  | _, .slice => .isFalse id
  | b, .ref a => decideMeets want s b a

instance decideMeetsAll (want : ObjectId → Int) (s : State) :
    (b : Binder) → (as : List Awaitable) → Decidable (MeetsAll want s b as)
  | _, [] => .isTrue trivial
  | b, a :: as =>
    have := decideMeets want s b a
    have := decideMeetsAll want s b as
    inferInstanceAs (Decidable (_ ∧ _))
end

instance decideSettledAt (want : ObjectId → Int) (s : State) :
    (op : Op) → Decidable (op.SettledAt want s)
  | .coAwait c a => decideMeets want s ⟨[], (s.coros c).prio.priority⟩ a
  | .object _ | .handle _ | .coroutine _ _ | .setPrio _ _ | .setHandle _ _ | .setCoroPrio _ _
  | .bind _ | .bindElsewhere _ | .resume _ | .finish _ _ | .advance _ => .isTrue trivial

mutual
/-- The `delay`s, `until`s and `wait`s have the priority that they should have. -/
def Resolved (want : ObjectId → Int) (s : State) (b : Binder) : Awaitable → Prop
  | .leaf o _ => (s.prios o).given = PriorityConsts.inherit →
    want o = b.priority ∧ (s.prios o).priority = want o
  | .comp o _ _ as => ResolvedAll want s (b.within (s.prios o).given) as
  | .slice => False
  | .ref a => Resolved want s b a
  | _ => True

def ResolvedAll (want : ObjectId → Int) (s : State) (b : Binder) : List Awaitable → Prop
  | [] => True
  | a :: as => Resolved want s b a ∧ ResolvedAll want s b as
end

/-- What binding does to the stored priorities. -/
def Later (want : ObjectId → Int) (s s' : State) : Prop :=
  ∀ o, (s'.prios o).given = (s.prios o).given ∧
    ((s'.prios o).priority = (s.prios o).priority ∨
      (s.prios o).given = PriorityConsts.inherit ∧ (s'.prios o).priority = want o)

namespace Later

theorem of_prios (h : s'.prios = s.prios) : Later want s s' := fun o => by
  rw [h]
  exact ⟨rfl, .inl rfl⟩

theorem refl (s : State) : Later want s s := of_prios rfl

theorem trans (h : Later want s s') (h' : Later want s' t) : Later want s t := by
  intro o
  obtain ⟨hgiven, hprio⟩ := h o
  obtain ⟨hgiven', hprio'⟩ := h' o
  refine ⟨hgiven'.trans hgiven, ?_⟩
  cases hprio' with
  | inl heq =>
      rw [heq]
      exact hprio
  | inr hwant => exact .inr ⟨hgiven ▸ hwant.1, hwant.2⟩

theorem fits (h : Later want s s') (hf : s.Fits want b o) : s'.Fits want b o := by
  intro hgiven
  obtain ⟨hsame, hprio⟩ := h o
  obtain ⟨hwant, hstored⟩ := hf (hsame ▸ hgiven)
  refine ⟨hwant, ?_⟩
  cases hprio with
  | inl heq =>
      rw [heq]
      exact hstored
  | inr hw => exact .inr hw.2

mutual
theorem meets (h : Later want s s') (b : Binder) : (a : Awaitable) → Meets want s b a →
    Meets want s' b a
  | .leaf _ _, hm => h.fits hm
  | .wake, _ => trivial
  | .coroutine _, _ => trivial
  | .async _, _ => trivial
  | .comp o _ _ as, hm => by
      have hall := h.meetsAll (b.within (s.prios o).given) as hm.2
      rw [← (h o).1] at hall
      exact ⟨h.fits hm.1, hall⟩
  | .slice, hm => hm
  | .ref a, hm => h.meets b a hm

theorem meetsAll (h : Later want s s') (b : Binder) : (as : List Awaitable) →
    MeetsAll want s b as → MeetsAll want s' b as
  | [], _ => trivial
  | a :: as, hm => ⟨h.meets b a hm.1, h.meetsAll b as hm.2⟩
end

mutual
theorem resolved (h : Later want s s') (b : Binder) : (a : Awaitable) → Resolved want s b a →
    Resolved want s' b a
  | .leaf o _, hr => by
      intro hgiven
      obtain ⟨hsame, hprio⟩ := h o
      obtain ⟨hwant, hstored⟩ := hr (hsame ▸ hgiven)
      refine ⟨hwant, ?_⟩
      cases hprio with
      | inl heq => rw [heq, hstored]
      | inr hw => exact hw.2
  | .wake, _ => trivial
  | .coroutine _, _ => trivial
  | .async _, _ => trivial
  | .comp o _ _ as, hr => by
      have hall := h.resolvedAll (b.within (s.prios o).given) as hr
      rw [← (h o).1] at hall
      exact hall
  | .slice, hr => hr
  | .ref a, hr => h.resolved b a hr

theorem resolvedAll (h : Later want s s') (b : Binder) : (as : List Awaitable) →
    ResolvedAll want s b as → ResolvedAll want s' b as
  | [], _ => trivial
  | a :: as, hr => ⟨h.resolved b a hr.1, h.resolvedAll b as hr.2⟩
end

end Later

/-! ### The invariant -/

/-- Every token has the priority that it should have, and so has every process; and nothing has
been undefined. -/
structure Right (s : State) : Prop where
  tokens : ∀ tkn ∈ s.tokens, ∀ o, tkn.origin = some o → tkn.priority = o.priority
  coros : ∀ c b, (s.coros c).binder = some b → (s.coros c).env ≠ .unbound ∧
    (s.coros c).prio.priority = resolvePriority (s.coros c).prio.given b.priority
  unbound : ∀ c, (s.coros c).env = .unbound →
    (s.coros c).prio.priority = (s.coros c).prio.given
  defined : s.undefined = false

/-- A function that leaves the objects with a priority alone. -/
structure Quiet (s s' : State) : Prop where
  right : Right s'
  prios : s'.prios = s.prios

namespace Right

theorem init : Right State.init where
  tokens _ hmem := by cases hmem
  coros _ _ hb := by cases hb
  unbound _ henv := by cases henv
  defined := rfl

theorem of_eq (hs : Right s) (htokens : s'.tokens = s.tokens) (hcoros : s'.coros = s.coros)
    (hdefined : s'.undefined = s.undefined) : Right s' where
  tokens := by
    rw [htokens]
    exact hs.tokens
  coros := by
    rw [hcoros]
    exact hs.coros
  unbound := by
    rw [hcoros]
    exact hs.unbound
  defined := hdefined.trans hs.defined

theorem newToken (hs : Right s) (h : ∀ o, tkn.origin = some o → tkn.priority = o.priority) :
    Right (s.newToken tkn) where
  tokens tkn' hmem := by
    cases List.mem_append.mp hmem with
    | inl hold => exact hs.tokens tkn' hold
    | inr hnew =>
        rw [List.mem_singleton.mp hnew]
        exact h
  coros := hs.coros
  unbound := hs.unbound
  defined := hs.defined

/-- One process changes. -/
theorem setCoro (hs : Right s) {d : Coro}
    (hbinder : ∀ b, d.binder = some b → d.env ≠ .unbound ∧
      d.prio.priority = resolvePriority d.prio.given b.priority)
    (hunbound : d.env = .unbound → d.prio.priority = d.prio.given) : Right (s.setCoro c d) where
  tokens := hs.tokens
  coros c' b hb := by
    simp only [State.setCoro, Function.update_apply] at hb ⊢
    split
    · next hc =>
        rw [if_pos hc] at hb
        exact hbinder b hb
    · next hc =>
        rw [if_neg hc] at hb
        exact hs.coros c' b hb
  unbound c' henv := by
    simp only [State.setCoro, Function.update_apply] at henv ⊢
    split
    · next hc =>
        rw [if_pos hc] at henv
        exact hunbound henv
    · next hc =>
        rw [if_neg hc] at henv
        exact hs.unbound c' henv
  defined := hs.defined

theorem startCoro (hs : Right s) (henv : (s.coros c).env = .unbound) :
    Right (s.startCoro c b.priority b) := by
  have hprio : ((s.coros c).prio.bind b.priority).priority =
      resolvePriority (s.coros c).prio.given b.priority := by
    change resolvePriority (s.coros c).prio.priority b.priority = _
    rw [hs.unbound c henv]
  apply newToken
  · apply hs.setCoro
    · intro b' hb
      cases hb
      exact ⟨Binding.noConfusion, hprio⟩
    · intro h
      cases h
  · intro o ho
    cases ho
    exact hprio

theorem bind_ (hs : Right s) (c : CoroId) (b : Binder) : Quiet s (s.bind_ c b.priority b).2 := by
  unfold State.bind_
  cases henv : (s.coros c).env with
  | elsewhere => exact ⟨hs, rfl⟩
  | here => exact ⟨hs, rfl⟩
  | unbound => exact ⟨hs.startCoro henv, rfl⟩

theorem newCompletion (hs : Right s) : Quiet s (s.newCompletion p coroData) := by
  refine ⟨hs.newToken fun o ho => ?_, rfl⟩
  cases ho

theorem suspendHandle (hs : Right s) (o : ObjectId) (coroData : Option CoroId) :
    Quiet s (s.suspendHandle o coroData).2 := by
  unfold State.suspendHandle
  split
  · exact ⟨hs, rfl⟩
  · exact ⟨hs.newCompletion.right.of_eq rfl rfl rfl, rfl⟩

theorem resumeHandle (hs : Right s) (o : ObjectId) : Quiet s (s.resumeHandle o).2 := by
  unfold State.resumeHandle
  split
  · exact ⟨hs.of_eq rfl rfl rfl, rfl⟩
  · exact ⟨hs.of_eq rfl rfl rfl, rfl⟩

end Right

theorem Quiet.trans (h : Quiet s s') (h' : Quiet s' t) : Quiet s t :=
  ⟨h'.right, h'.prios.trans h.prios⟩

theorem Right.detach (hs : Right s) (o : ObjectId) (b : Binder) :
    Quiet s (s.detach o b.priority b).2 := by
  have hbind := hs.bind_ (s.handles o).handle.coro b
  unfold State.detach
  cases hr : s.bind_ (s.handles o).handle.coro b.priority b with
  | mk r s1 =>
      rw [hr] at hbind
      cases r with
      | error e => exact hbind
      | ok u =>
          simp only []
          split
          · exact hbind.trans (hbind.right.resumeHandle o)
          · have hsus := hbind.right.suspendHandle o none
            cases hr2 : s1.suspendHandle o none with
            | mk r2 s2 =>
                rw [hr2] at hsus
                cases r2 with
                | error e => exact hbind.trans hsus
                | ok u2 => exact (hbind.trans hsus).trans (hsus.right.resumeHandle o)

/-! ### Binding -/

/-- Binding an object that `Fits` makes its priority the one that it should have. -/
theorem bind_fits (hf : s.Fits want b o) :
    ((s.prios o).bind b.priority).priority = resolvePriority (s.prios o).given b.priority ∧
      ((s.prios o).given = PriorityConsts.inherit →
        want o = b.priority ∧ ((s.prios o).bind b.priority).priority = want o) := by
  cases Decidable.em ((s.prios o).given = PriorityConsts.inherit) with
  | inl hgiven =>
      obtain ⟨hwant, hstored⟩ := hf hgiven
      have hprio : ((s.prios o).bind b.priority).priority = want o := by
        change resolvePriority (s.prios o).priority b.priority = want o
        cases hstored with
        | inl hinherit => rw [hinherit, resolvePriority_inherit, hwant]
        | inr heq =>
            rw [heq, hwant]
            unfold resolvePriority
            split <;> rfl
      rw [hgiven, resolvePriority_inherit, hprio]
      exact ⟨hwant, fun _ => ⟨hwant, rfl⟩⟩
  | inr hgiven =>
      rw [Prio.bind_explicit hgiven, resolvePriority_explicit hgiven]
      exact ⟨rfl, fun h => absurd h hgiven⟩

/-- The rest of the awaitable sees no more than that. -/
theorem setPrio_later (hf : s.Fits want b o) :
    Later want s (s.setPrio o ((s.prios o).bind b.priority)) := by
  intro o'
  simp only [State.setPrio, Function.update_apply]
  split
  · next ho =>
      rw [ho]
      refine ⟨rfl, ?_⟩
      cases Decidable.em ((s.prios o).given = PriorityConsts.inherit) with
      | inl hgiven => exact .inr ⟨hgiven, ((bind_fits hf).2 hgiven).2⟩
      | inr hgiven =>
          left
          rw [Prio.bind_explicit hgiven, (s.prios o).kept hgiven]
  · exact ⟨rfl, .inl rfl⟩

/-- What `await_bind` leaves. -/
structure Binds (want : ObjectId → Int) (s : State) (r : Except (Exn Unit) Unit × State)
    (resolved : State → Prop) : Prop where
  right : Right r.2
  later : Later want s r.2
  resolved : r.1 = .ok () → resolved r.2

theorem Quiet.binds {r : Except (Exn Unit) Unit × State} (h : Quiet s r.2) :
    Binds want s r fun _ => True :=
  ⟨h.right, .of_prios h.prios, fun _ => trivial⟩

mutual
theorem awaitBind_meets : (a : Awaitable) → (b : Binder) → (s : State) → Right s →
    Meets want s b a → Binds want s (awaitBind b.priority b a s) fun s' => Resolved want s' b a
  | .leaf o _, b, s, hs, hm => by
      refine ⟨hs.of_eq rfl rfl rfl, setPrio_later hm, fun _ hgiven => ?_⟩
      have hself : (s.setPrio o ((s.prios o).bind b.priority)).prios o =
          (s.prios o).bind b.priority := Function.update_self ..
      simp only [awaitBind, hself] at hgiven ⊢
      exact (bind_fits hm).2 hgiven
  | .wake, _, s, hs, _ => ⟨hs, .refl s, fun _ => trivial⟩
  | .coroutine o, b, s, hs, _ => (hs.bind_ (s.handles o).handle.coro b).binds
  | .async o, b, s, hs, _ => (hs.detach o b).binds
  | .comp o cond latency as, b, s, hs, hm => by
      have hlater := setPrio_later hm.1
      have hself : (s.setPrio o ((s.prios o).bind b.priority)).prios o =
          (s.prios o).bind b.priority := Function.update_self ..
      -- what the children are bound with is what they inherit
      have hprio : ((s.prios o).bind b.priority).priority =
          (b.within (s.prios o).given).priority := by
        rw [Binder.priority_within]
        exact (bind_fits hm.1).1
      have hall := awaitBindAll_meets as (b.within (s.prios o).given)
        (s.setPrio o ((s.prios o).bind b.priority)) (hs.of_eq rfl rfl rfl)
        (hlater.meetsAll (b.within (s.prios o).given) as hm.2)
      simp only [awaitBind, Prio.bind_given]
      rw [hprio]
      refine ⟨hall.right, hlater.trans hall.later, fun hok => ?_⟩
      have hres := hall.resolved hok
      have hgiven := (hall.later o).1
      rw [hself, Prio.bind_given] at hgiven
      simp only [Resolved]
      rw [hgiven]
      exact hres
  | .slice, _, _, _, hm => hm.elim
  | .ref a, b, s, hs, hm => awaitBind_meets a b s hs hm

theorem awaitBindAll_meets : (as : List Awaitable) → (b : Binder) → (s : State) → Right s →
    MeetsAll want s b as →
    Binds want s (awaitBindAll b.priority b as s) fun s' => ResolvedAll want s' b as
  | [], _, s, hs, _ => ⟨hs, .refl s, fun _ => trivial⟩
  | a :: as, b, s, hs, hm => by
      have hfirst := awaitBind_meets a b s hs hm.1
      simp only [awaitBindAll]
      cases hr : awaitBind b.priority b a s with
      | mk r s1 =>
          rw [hr] at hfirst
          cases r with
          | error e => exact ⟨hfirst.right, hfirst.later, fun hok => by cases hok⟩
          | ok u =>
              have hrest := awaitBindAll_meets as b s1 hfirst.right
                (hfirst.later.meetsAll b as hm.2)
              refine ⟨hrest.right, hfirst.later.trans hrest.later, fun hok => ⟨?_, ?_⟩⟩
              · exact hrest.later.resolved b a (hfirst.resolved rfl)
              · exact hrest.resolved hok
end

/-! ### Suspending and resuming -/

mutual
/-- The tokens of what is resolved have the priorities that they should have. -/
theorem awaitSuspend_resolved : (a : Awaitable) → (b : Binder) → (s : State) → Right s →
    Resolved want s b a → Quiet s (awaitSuspend coroData b a s).2
  | .leaf o _, b, s, hs, hr => by
      refine ⟨hs.newToken fun origin horigin => ?_, rfl⟩
      cases horigin
      change (s.prios o).priority = resolvePriority (s.prios o).given b.priority
      cases Decidable.em ((s.prios o).given = PriorityConsts.inherit) with
      | inl hgiven =>
          obtain ⟨hwant, hstored⟩ := hr hgiven
          rw [hgiven, resolvePriority_inherit, hstored, hwant]
      | inr hgiven => rw [resolvePriority_explicit hgiven, (s.prios o).kept hgiven]
  | .wake, _, _, hs, _ => ⟨hs, rfl⟩
  | .coroutine o, _, _, hs, _ => hs.suspendHandle o coroData
  | .async _, _, _, hs, _ => ⟨hs, rfl⟩
  | .comp o _ latency as, b, s, hs, hr => by
      have hout : Right (s.newToken ⟨latency, (s.prios o).priority, coroData, none⟩) := by
        apply hs.newToken
        intro origin horigin
        cases horigin
      have hlater : Later want s (s.newToken ⟨latency, (s.prios o).priority, coroData, none⟩) :=
        .of_prios rfl
      have hrest := awaitSuspendAll_resolved as (b.within (s.prios o).given) _ hout
        (hlater.resolvedAll _ as hr)
      exact ⟨hrest.right, hrest.prios⟩
  | .slice, _, _, _, hr => hr.elim
  | .ref a, b, s, hs, hr => awaitSuspend_resolved a b s hs hr

theorem awaitSuspendAll_resolved : (as : List Awaitable) → (b : Binder) → (s : State) →
    Right s → ResolvedAll want s b as → Quiet s (awaitSuspendAll coroData b as s).2
  | [], _, _, hs, _ => ⟨hs, rfl⟩
  | a :: as, b, s, hs, hr => by
      simp only [awaitSuspendAll]
      split
      · exact awaitSuspendAll_resolved as b s hs hr.2
      · have hfirst := awaitSuspend_resolved a b s hs hr.1
        cases hr1 : awaitSuspend coroData b a s with
        | mk r s1 =>
            rw [hr1] at hfirst
            cases r with
            | error e => exact hfirst
            | ok u =>
                have hlater : Later want s s1 := .of_prios hfirst.prios
                exact hfirst.trans (awaitSuspendAll_resolved as b s1 hfirst.right
                  (hlater.resolvedAll b as hr.2))
end

mutual
theorem awaitResume_quiet : (a : Awaitable) → (s : State) → Right s →
    Quiet s (awaitResume a s).2
  | .leaf _ _, _, hs => ⟨hs, rfl⟩
  | .wake, _, hs => ⟨hs, rfl⟩
  | .coroutine o, _, hs => hs.resumeHandle o
  | .async _, _, hs => ⟨hs, rfl⟩
  | .comp _ _ _ as, s, hs => awaitResumeAll_quiet as s hs
  | .slice, _, hs => ⟨hs, rfl⟩
  | .ref a, s, hs => awaitResume_quiet a s hs

theorem awaitResumeAll_quiet : (as : List Awaitable) → (s : State) → Right s →
    Quiet s (awaitResumeAll as s).2
  | [], _, hs => ⟨hs, rfl⟩
  | a :: as, s, hs => by
      have hfirst := awaitResume_quiet a s hs
      simp only [awaitResumeAll]
      cases hr : awaitResume a s with
      | mk r s1 =>
          rw [hr] at hfirst
          cases r with
          | error e => exact hfirst
          | ok u => exact hfirst.trans (awaitResumeAll_quiet as s1 hfirst.right)
end

/-! ### Copies -/

/-- What the copies are to inherit. -/
def State.wantCopies (s : State) (want : ObjectId → Int) (o : ObjectId) : Int :=
  if o < s.next then want o else want (o - s.next)

theorem copy_old (ho : o < s.next) : (s.copy a).2.prios o = s.prios o := if_pos ho

theorem copy_new : (s.copy a).2.prios (s.next + o) = s.prios o := by
  have hnot : ¬ s.next + o < s.next := Nat.not_lt.mpr (Nat.le_add_right ..)
  change (if s.next + o < s.next then s.prios (s.next + o) else s.prios (s.next + o - s.next)) = _
  rw [if_neg hnot, Nat.add_sub_cancel_left]

theorem wantCopies_new : s.wantCopies want (s.next + o) = want o := by
  have hnot : ¬ s.next + o < s.next := Nat.not_lt.mpr (Nat.le_add_right ..)
  rw [State.wantCopies, if_neg hnot, Nat.add_sub_cancel_left]

theorem fits_new (hf : s.Fits want b o) :
    State.Fits (s.copy a).2 (s.wantCopies want) b (s.next + o) := by
  unfold State.Fits
  rw [copy_new, wantCopies_new]
  exact hf

theorem fits_old (ho : o < s.next) (hf : s.Fits want b o) :
    State.Fits (s.copy a).2 (s.wantCopies want) b o := by
  have hwant : s.wantCopies want o = want o := if_pos ho
  unfold State.Fits
  rw [copy_old ho, hwant]
  exact hf

mutual
/-- What is held by reference is not copied. -/
theorem meets_old (x : Awaitable) : (a : Awaitable) → (b : Binder) → a.inside s.next = true →
    Meets want s b a → Meets (s.wantCopies want) (s.copy x).2 b a
  | .leaf o _, b, hin, hm => by
      simp only [Awaitable.inside, decide_eq_true_eq] at hin
      exact fits_old hin hm
  | .wake, _, _, _ => trivial
  | .coroutine _, _, _, _ => trivial
  | .async _, _, _, _ => trivial
  | .comp o _ _ as, b, hin, hm => by
      simp only [Awaitable.inside, Bool.and_eq_true, decide_eq_true_eq] at hin
      have hall := meetsAll_old x as (b.within (s.prios o).given) hin.2 hm.2
      refine ⟨fits_old hin.1 hm.1, ?_⟩
      rw [copy_old hin.1]
      exact hall
  | .slice, _, _, hm => hm
  | .ref a, b, hin, hm => meets_old x a b hin hm

theorem meetsAll_old (x : Awaitable) : (as : List Awaitable) → (b : Binder) →
    Awaitable.insideAll s.next as = true → MeetsAll want s b as →
    MeetsAll (s.wantCopies want) (s.copy x).2 b as
  | [], _, _, _ => trivial
  | a :: as, b, hin, hm => by
      simp only [Awaitable.insideAll, Bool.and_eq_true] at hin
      exact ⟨meets_old x a b hin.1 hm.1, meetsAll_old x as b hin.2 hm.2⟩
end

mutual
theorem meets_new (x : Awaitable) : (a : Awaitable) → (b : Binder) → a.inside s.next = true →
    Meets want s b a → Meets (s.wantCopies want) (s.copy x).2 b (a.rename (s.next + ·))
  | .leaf _ _, _, _, hm => fits_new hm
  | .wake, _, _, _ => trivial
  | .coroutine _, _, _, _ => trivial
  | .async _, _, _, _ => trivial
  | .comp o _ _ as, b, hin, hm => by
      simp only [Awaitable.inside, Bool.and_eq_true, decide_eq_true_eq] at hin
      have hall := meetsAll_new x as (b.within (s.prios o).given) hin.2 hm.2
      refine ⟨fits_new hm.1, ?_⟩
      rw [copy_new]
      exact hall
  | .slice, _, _, hm => hm
  | .ref a, b, hin, hm => meets_old x a b hin hm

theorem meetsAll_new (x : Awaitable) : (as : List Awaitable) → (b : Binder) →
    Awaitable.insideAll s.next as = true → MeetsAll want s b as →
    MeetsAll (s.wantCopies want) (s.copy x).2 b (Awaitable.renameAll (s.next + ·) as)
  | [], _, _, _ => trivial
  | a :: as, b, hin, hm => by
      simp only [Awaitable.insideAll, Bool.and_eq_true] at hin
      exact ⟨meets_new x a b hin.1 hm.1, meetsAll_new x as b hin.2 hm.2⟩
end

/-! ### Runs -/

theorem Right.coAwait (hs : Right s) (hin : a.inside s.next = true)
    (hm : Meets want s ⟨[], (s.coros c).prio.priority⟩ a) : Right (s.coAwait c a).2 := by
  have hbind := awaitBind_meets (s.copy a).1 ⟨[], (s.coros c).prio.priority⟩ (s.copy a).2
    (hs.of_eq rfl rfl rfl) (meets_new a a _ hin hm)
  unfold State.coAwait
  change Binds _ _ (awaitBind (s.coros c).prio.priority ⟨[], (s.coros c).prio.priority⟩ _ _) _
    at hbind
  simp only []
  cases hr : awaitBind (s.coros c).prio.priority ⟨[], (s.coros c).prio.priority⟩ (s.copy a).1
    (s.copy a).2 with
  | mk r s1 =>
      rw [hr] at hbind
      cases r with
      | error e => exact hbind.right
      | ok u =>
          simp only []
          split
          · exact (awaitResume_quiet _ _ hbind.right).right
          · have hsus : Quiet s1
                (awaitSuspend (some c) ⟨[], (s.coros c).prio.priority⟩ (s.copy a).1 s1).2 :=
              awaitSuspend_resolved _ _ s1 hbind.right (hbind.resolved rfl)
            cases hr2 : awaitSuspend (some c) ⟨[], (s.coros c).prio.priority⟩ (s.copy a).1 s1 with
            | mk r2 s2 =>
                rw [hr2] at hsus
                cases r2 with
                | error e => exact hsus.right
                | ok u2 =>
                    exact hsus.right.setCoro (hsus.right.coros c) (hsus.right.unbound c)

theorem Right.bind (hs : Right s) (p : Handle) : Right (s.bind p).2 := by
  have hbind := hs.bind_ p.coro .environment
  unfold State.bind
  change Quiet s (s.bind_ p.coro 0 .environment).2 at hbind
  cases hr : s.bind_ p.coro 0 .environment with
  | mk r s1 =>
      rw [hr] at hbind
      cases r with
      | error e => exact hbind.right
      | ok u =>
          simp only []
          split
          · exact hbind.right
          · exact hbind.right.newCompletion.right

/-- What an operation of a program leaves. -/
theorem Right.exec (hs : Right s) {op : Op} (hal : s.Allowed op) (hset : op.Settled s) :
    Right (s.exec op) := by
  cases op with
  | object priority => exact hs.of_eq rfl rfl rfl
  | handle p => exact hs.of_eq rfl rfl rfl
  | coroutine priority latency =>
      have hnew := hs.setCoro (c := s.nextCoro) (d := { prio := .of priority, latency := latency })
        (fun b hb => by cases hb) fun _ => rfl
      exact hnew.of_eq rfl rfl rfl
  | setPrio o priority => exact hs.of_eq rfl rfl rfl
  | setHandle o p => exact hs.of_eq rfl rfl rfl
  | setCoroPrio c priority =>
      apply hs.setCoro
      · intro b hb
        obtain ⟨hbound, -⟩ := hs.coros c b hb
        exact ⟨hbound, (resolvePriority_explicit (hal.2.resolve_left hbound)).symm⟩
      · intro _
        rfl
  | bind p => exact hs.bind p
  | bindElsewhere c =>
      apply hs.setCoro
      · intro b hb
        exact absurd hal.2 (hs.coros c b hb).1
      · intro henv
        cases henv
  | coAwait c a =>
      obtain ⟨want, hm⟩ := hset
      exact hs.coAwait hal.2.2.2 hm
  | resume c =>
      simp only [State.exec]
      cases (s.coros c).waiting with
      | none => exact hs
      | some a =>
          have hnone : Right (s.setCoro c { s.coros c with waiting := none }) :=
            hs.setCoro (hs.coros c) (hs.unbound c)
          exact (awaitResume_quiet a _ hnone).right
  | finish c failed => exact hs.setCoro (hs.coros c) (hs.unbound c)
  | advance d => exact hs.of_eq rfl rfl rfl

theorem Right.of_runs (hr : Transition.Runs State.Step (fun s op => op.Settled s) State.init s) :
    Right s := by
  apply hr.invariant _ Right.init
  intro s op s' hs hset hstep
  rw [hstep.2]
  exact hs.exec hstep.1 hset

/-- In every run in which no object that is left at `inherit` is awaited at another priority than
it was bound with before, and none is a `slice`, each process has the priority it was given or
that of what bound it first, and each start token and each token of a `delay`, `until` or `wait`
has the priority its own object was given, or that of the nearest composition with one, or that
of the process that awaits it. -/
theorem priorities_inherited
    (hr : Transition.Runs State.Step (fun s op => op.Settled s) State.init s) :
    (∀ c b, (s.coros c).binder = some b →
      (s.coros c).prio.priority = resolvePriority (s.coros c).prio.given b.priority) ∧
      (∀ tkn ∈ s.tokens, ∀ o, tkn.origin = some o → tkn.priority = o.priority) ∧
      s.undefined = false :=
  ⟨fun c b hb => ((Right.of_runs hr).coros c b hb).2, (Right.of_runs hr).tokens,
    (Right.of_runs hr).defined⟩

example : Binder.environment.priority = 0 := rfl

namespace State

/-- The operations one after the other, as long as they are allowed and meet `ok`. -/
def run (ok : State → Op → Bool) (s : State) : List Op → Option State
  | [] => some s
  | op :: ops => if s.Allowed op ∧ ok s op = true then (s.exec op).run ok ops else none

theorem runs {ok : State → Op → Bool} {C : State → Op → Prop} {ops : List Op}
    (hok : ∀ s op, ok s op = true → C s op) (h : s.run ok ops = some s') :
    Transition.Runs Step C s s' := by
  induction ops generalizing s with
  | nil =>
      cases h
      exact .refl _
  | cons op ops ih =>
      simp only [run] at h
      split at h
      · next hop =>
          have hstep : Transition.Runs Step C s (s.exec op) :=
            Transition.Runs.tail (.refl s) (hok s op hop.2) ⟨hop.1, rfl⟩
          exact hstep.trans (ih h)
      · cases h

end State

/-- `any_of.by_reference(d)` with a `delay` that is left at `inherit`, as is the composition. -/
def anyOfReference : Awaitable := .comp 1 .anyOf 0 [.ref (.leaf 0 (.timeout true 1))]

/-- A process with priority 3 awaits it twice. -/
def awaitTwice : List Op :=
  [.object PriorityConsts.inherit, .object PriorityConsts.inherit, .coroutine 3 0,
    .bind ⟨0, 0, PriorityConsts.inherit⟩, .coAwait 0 anyOfReference, .resume 0,
    .coAwait 0 anyOfReference]

theorem priorities_inherited_awaitTwice :
    ((State.init.run (fun s op => decide (op.SettledAt (fun _ => 3) s)) awaitTwice).map fun s =>
      (s.tokens.length, s.tokens.all fun tkn =>
        tkn.origin.all fun o => decide (tkn.priority = o.priority))) = some (6, true) := by
  have hlength : ((State.init.run (fun s op => decide (op.SettledAt (fun _ => 3) s))
      awaitTwice).map (·.tokens.length)) = some 6 := by decide +kernel
  cases hrun : State.init.run (fun s op => decide (op.SettledAt (fun _ => 3) s)) awaitTwice with
  | none =>
      rw [hrun] at hlength
      cases hlength
  | some s =>
      have hr : Transition.Runs State.Step (fun s op => op.Settled s) State.init s :=
        State.runs (fun s op hok => ⟨fun _ => 3, of_decide_eq_true hok⟩) hrun
      rw [hrun] at hlength
      have hall : (s.tokens.all fun tkn =>
          tkn.origin.all fun o => decide (tkn.priority = o.priority)) = true := by
        rw [List.all_eq_true]
        intro tkn hmem
        cases horigin : tkn.origin with
        | none => rfl
        | some o => exact decide_eq_true ((priorities_inherited hr).2.1 tkn hmem o horigin)
      rw [Option.map_some, hall]
      exact congrArg (Option.map (·, true)) hlength

/-- A process with priority 5 awaits it, and then one with priority 0. -/
def awaitByTwo : List Op :=
  [.object PriorityConsts.inherit, .object PriorityConsts.inherit, .coroutine 5 0,
    .coroutine PriorityConsts.inherit 0, .bind ⟨0, 0, PriorityConsts.inherit⟩,
    .bind ⟨1, 0, PriorityConsts.inherit⟩, .coAwait 0 anyOfReference, .coAwait 1 anyOfReference]

/-- The second token of the `delay` has the priority of the first. -/
theorem reused_delay_keeps_priority :
    ∃ s, Transition.Runs State.Step (fun _ _ => True) State.init s ∧
      ∃ tkn ∈ s.tokens, ∃ o, tkn.origin = some o ∧ tkn.priority ≠ o.priority := by
  have hwrong : ((State.init.run (fun _ _ => true) awaitByTwo).map fun s =>
      s.tokens.any fun tkn => tkn.origin.any fun o => decide (tkn.priority ≠ o.priority)) =
        some true := by decide +kernel
  cases hrun : State.init.run (fun _ _ => true) awaitByTwo with
  | none =>
      rw [hrun] at hwrong
      cases hwrong
  | some s =>
      rw [hrun] at hwrong
      obtain ⟨tkn, hmem, hany⟩ := List.any_eq_true.mp (Option.some.inj hwrong)
      refine ⟨s, State.runs (fun _ _ _ => trivial) hrun, tkn, hmem, ?_⟩
      cases horigin : tkn.origin with
      | none =>
          rw [horigin] at hany
          cases hany
      | some o =>
          rw [horigin] at hany
          exact ⟨o, rfl, of_decide_eq_true hany⟩

end Cxxdes.Priority
