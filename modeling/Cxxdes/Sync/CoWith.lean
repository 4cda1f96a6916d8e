-- SUMMARY: _Co_with over a mutex: the coroutine that acquires it, runs a section and releases it, and what each of its actions does to the mutex.
import Cxxdes.Sync.Mutex

/-!
# Sections

`_Co_with(m) { ... }` awaits the coroutine `m + f`, whose body acquires `m`, runs the
subroutine `f()` and releases the handle, which is a local of that body. `Guarded` is a
model whose bodies use a mutex in this way only. A body that is between its acquire and
its release holds the mutex; no destructor of the handle releases it.
-/

namespace Cxxdes

/-- The calls of coroutine functions: those of the model, and `operator+` with the
section `f`. -/
inductive CoWith.Call (U B : Type) where
  | user (u : U)
  | coWith (f : B)

/-- A model whose bodies use the mutex in sections only. They can read `is_acquired()`. -/
structure Guarded (V E : Type) where
  User : Type
  Body : Type
  Memory : Type
  event : EventId
  /-- the value that stands for a handle object -/
  handle : Nat → V
  handleOf : V → Nat
  handleOf_handle : ∀ h, handleOf (handle h) = h
  start : User → Body
  next : Body → Bool → Memory → Int →
    Memory × SubAction (CoWith.Call User Body) Body V E
  keepsOut : ∀ b owned m now a, (next b owned m now).2 = .act a → a.Avoids event

namespace Guarded

variable {V E : Type}

/-- The bodies of the model, and those of `operator+`: `acquired f r` goes on with the result
of `acquire()`, `left h r` with that of the section, `released r` with that of `release()`. -/
inductive Stage (G : Guarded V E) where
  | user (b : G.Body)
  | acquire (f : G.Body)
  | acquired (f : G.Body) (r : Result V E)
  | left (h : Nat) (r : Result V E)
  | released (r : Result V E)

/-- The handle object that `acquire()` has returned. -/
def held (G : Guarded V E) : Val V → Nat
  | .val v => G.handleOf v
  | _ => 0

/-- What a body of the model does. -/
def run (G : Guarded V E) (b : G.Body) (owned : Bool) (m : G.Memory) (now : Int) :
    G.Memory × ClientAction (CoWith.Call G.User G.Body) G.Stage V E Mutex.Op :=
  ((G.next b owned m now).1, match (G.next b owned m now).2 with
    | .act a => .act (a.map .user)
    | .call g k => .call (.user g) fun r => .user (k r))

theorem run_avoids (G : Guarded V E) (b : G.Body) (owned : Bool) (m : G.Memory) (now : Int) :
    (G.run b owned m now).2.Avoids G.event := by
  have hout := G.keepsOut b owned m now
  cases hact : (G.next b owned m now).2 with
  | call g k => simp only [run, hact]; trivial
  | act a =>
      have ha := hout a hact
      simp only [run, hact]
      cases a <;> exact ha

/-- The bodies, with that of `operator+`. An exception of the section leaves it at once. -/
def next' (G : Guarded V E) : G.Stage → Mutex → G.Memory → Int →
    G.Memory × ClientAction (CoWith.Call G.User G.Body) G.Stage V E Mutex.Op
  | .user b, d, m, now => G.run b d.owned m now
  | .acquire f, _, m, _ => (m, .operate .acquire (.acquired f))
  | .acquired f (.ok v), _, m, _ => (m, .call (.user f) (.left (G.held v)))
  | .acquired _ (.error e), _, m, _ => (m, .act (.throw e))
  | .left h (.ok _), _, m, _ => (m, .operate (.release h) .released)
  | .left _ (.error e), _, m, _ => (m, .act (.throw e))
  | .released (.ok _), _, m, _ => (m, .act (.coReturn none))
  | .released (.error e), _, m, _ => (m, .act (.throw e))

/-- The processes of the model, as a client of the mutex. -/
abbrev client (G : Guarded V E) : Client (mutex V E G.handle) where
  User := CoWith.Call G.User G.Body
  Body := G.Stage
  Memory := G.Memory
  event := G.event
  start
    | .user u => .user (G.start u)
    | .coWith f => .acquire f
  next := G.next'
  keepsOut b d m now := by
    cases b with
    | user b => exact G.run_avoids b d.owned m now
    | acquire f => trivial
    | acquired f r | left h r | released r => cases r <;> trivial

/-! ### Who holds the mutex -/

variable {G : Guarded V E}

/-- The evaluation of a body of the model, with the subroutines it has called. -/
inductive Plain : Inlined G.client.sub → Prop where
  | user (b : G.Body) : Plain (.body (.user (.user b)))
  | within {c : Inlined G.client.sub} (h : Plain c) (k : Result V E → G.Body) :
      Plain (.within c fun r => .user (.user (k r)))

/-- The evaluation of a body holds the mutex with the handle object `x`, if there is one. -/
inductive Holds : Inlined G.client.sub → Option Nat → Prop where
  | plain {c : Inlined G.client.sub} (h : Plain c) : Holds c none
  | acquire (f : G.Body) : Holds (.body (.user (.acquire f))) none
  | acquiring (f : G.Body) :
      Holds (.within (.body (.enter Mutex.Op.acquire)) fun r => .user (.acquired f r)) none
  | acquired (f : G.Body) (h : Nat) :
      Holds (.body (.user (.acquired f (.ok (.val (G.handle h)))))) (some h)
  | inside {c : Inlined G.client.sub} (hc : Plain c) (h : Nat) :
      Holds (.within c fun r => .user (.left h r)) (some h)
  | left (h : Nat) (v : Val V) : Holds (.body (.user (.left h (.ok v)))) (some h)
  | thrown (h : Nat) (e : Exn E) : Holds (.body (.user (.left h (.error e)))) none
  | releasing (h : Nat) :
      Holds (.within (.body (.enter (Mutex.Op.release h))) fun r => .user (.released r)) (some h)
  | waking : Holds (.within (.body (.leave none)) fun r => .user (.released r)) none
  | released (v : Val V) : Holds (.body (.user (.released (.ok v)))) none

/-- The section of an `operator+` ends with an exception. -/
def Throws (i : Inlined G.client.sub) (m : G.client.sub.Memory) (now : Int) : Prop :=
  ∃ c h e, i = .within c (fun r => .user (.left h r)) ∧ (c.next m now).2 = .throw e

/-- What a body that holds the mutex with `x` makes of the mutex `d` and of `x`. -/
inductive Passes (d : Mutex) (throws : Prop) : Option Nat → Mutex → Option Nat → Prop where
  | keeps (x : Option Nat) : Passes d throws x d x
  | acquires (hfree : d.owned = false) :
      Passes d throws none { d.newHandle true with owned := true } (some d.nextHandle)
  | releases (h : Nat) : Passes d throws (some h)
      { d with valid := Function.update d.valid h false, owned := false } none
  | throws (h : Nat) (ht : throws) : Passes d throws (some h) d none

theorem Passes.of_eq {d d' : Mutex} {throws : Prop} (h : d' = d) (x : Option Nat) :
    Passes d throws x d' x := by
  rw [h]
  exact .keeps x

theorem Passes.mono {d d' : Mutex} {throws throws' : Prop} {x x' : Option Nat}
    (h : Passes d throws x d' x') (ht : throws → throws') : Passes d throws' x d' x' := by
  cases h with
  | keeps => exact .keeps _
  | acquires hfree => exact .acquires hfree
  | releases h => exact .releases h
  | throws h h1 => exact .throws h (ht h1)

/-- What one action of a body does, when `r` are the memory and the action. A body that ends
does not hold the mutex. -/
def Keeps (d : Mutex) (throws : Prop) (x : Option Nat)
    (r : (Mutex × G.Memory) × Action G.client.User (Inlined G.client.sub) V E) : Prop :=
  ∃ x', Passes d throws x r.1.1 x' ∧ (r.2.All fun i => Holds i x') ∧
    (r.2.ends = true → x' = none)

theorem Plain.top {c : Inlined G.client.sub} (h : Plain c) :
    ∃ b, c.top = .user (.user b) := by
  induction h with
  | user b => exact ⟨b, rfl⟩
  | within h k ih => exact ih

/-- The handle object that a body releases is that with which it holds the mutex. -/
theorem Holds.top_release {i : Inlined G.client.sub} {x : Option Nat} (hi : Holds i x) {h : Nat}
    (htop : i.top = .enter (Mutex.Op.release h)) : x = some h := by
  cases hi with
  | releasing n => cases htop; rfl
  | plain hc =>
      obtain ⟨b, hb⟩ := hc.top
      rw [hb] at htop
      cases htop
  | inside hc n =>
      obtain ⟨b, hb⟩ := hc.top
      rw [Inlined.top, hb] at htop
      cases htop
  | acquire | acquiring | acquired | left | thrown | waking | released => cases htop

theorem Holds.top_acquire {i : Inlined G.client.sub} {x : Option Nat} (hi : Holds i x)
    (htop : i.top = .enter Mutex.Op.acquire) : x = none := by
  cases hi with
  | plain | acquiring | acquire | thrown | waking | released => rfl
  | inside hc n =>
      obtain ⟨b, hb⟩ := hc.top
      rw [Inlined.top, hb] at htop
      cases htop
  | acquired | left | releasing => cases htop

/-- An action of a body of the model. -/
theorem next_user (b : G.Body) (m : G.client.sub.Memory) (now : Int) :
    (Inlined.body (S := G.client.sub) (.user (.user b))).next m now =
      ((m.1, (G.run b m.1.owned m.2 now).1), match (G.next b m.1.owned m.2 now).2 with
        | .act a => ((a.map Stage.user).map Client.Stage.user).map Inlined.body
        | .call g k => .tau (.within (.body (.user (.user g))) fun r => .user (.user (k r)))) := by
  simp only [Inlined.next, Client.next', next', run]
  cases (G.next b m.1.owned m.2 now).2 <;> rfl

theorem Plain.next {c : Inlined G.client.sub} (h : Plain c) (m : G.client.sub.Memory)
    (now : Int) :
    (c.next m now).1.1 = m.1 ∧ (c.next m now).2.All Plain := by
  induction h with
  | user b =>
      rw [next_user]
      refine ⟨rfl, ?_⟩
      cases (G.next b m.1.owned m.2 now).2 with
      | call g k => exact .within (.user g) k
      | act a =>
          cases a with
          | tau => exact .user _
          | coReturn | throw => trivial
          | await | create | declare | move | bind => exact fun _ => .user _
  | @within c hc k ih =>
      rw [Inlined.next]
      refine ⟨ih.1, ?_⟩
      have hall := ih.2
      cases hact : (c.next m now).2 with
      | coReturn v => exact .user _
      | throw e => exact .user _
      | tau c' => rw [hact] at hall; exact .within hall k
      | await | create | declare | move | bind =>
          rw [hact] at hall
          exact fun r => .within (hall r) k

/-- Every action of a body. A valid handle is released, and only by the body that holds it. -/
theorem Holds.next {i : Inlined G.client.sub} {x : Option Nat} (hi : Holds i x) {d : Mutex}
    (hx : ∀ h, x = some h → d.valid h = true) (mem : G.Memory) (now : Int) :
    Keeps d (Throws i (d, mem) now) x (i.next (d, mem) now) := by
  cases hi with
  | plain hc =>
      obtain ⟨hd, hall⟩ := hc.next (d, mem) now
      exact ⟨none, .of_eq hd none, hall.imp fun _ hc => .plain hc, fun _ => rfl⟩
  | acquire f => exact ⟨none, .keeps none, .acquiring f, fun _ => rfl⟩
  | acquiring f =>
      cases hcan : (mutex V E G.handle).can Mutex.Op.acquire d with
      | false =>
          rw [Inlined.next_wait rfl hcan]
          exact ⟨none, .keeps none, fun _ => .acquiring f, fun _ => rfl⟩
      | true =>
          have hfree : d.owned = false := by simpa [mutex] using hcan
          have hnext : (Inlined.within (S := G.client.sub) (.body (.enter Mutex.Op.acquire))
              fun r => .user (.acquired f r)).next (d, mem) now =
                (({ d.newHandle true with owned := true }, mem),
                  .tau (.body (.user (.acquired f (.ok (.val (G.handle d.nextHandle))))))) := by
            simp [Inlined.next, Client.next', Client.enter, mutex, hfree, Action.map,
              Val.ofReturn]
          rw [hnext]
          exact ⟨_, .acquires hfree, .acquired f _, fun hf => by cases hf⟩
  | acquired f h =>
      have hheld : G.held (.val (G.handle h)) = h := G.handleOf_handle h
      have hnext : (Inlined.body (S := G.client.sub)
          (.user (.acquired f (.ok (.val (G.handle h)))))).next (d, mem) now =
            ((d, mem), .tau (.within (.body (.user (.user f))) fun r => .user (.left h r))) := by
        simp [Inlined.next, Client.next', next', hheld]
        rfl
      rw [hnext]
      exact ⟨some h, .keeps _, .inside (.user f) h, fun hf => by cases hf⟩
  | @inside c hc h =>
      obtain ⟨hd, hall⟩ := hc.next (d, mem) now
      have hnext : ((Inlined.within (S := G.client.sub) c fun r => .user (.left h r)).next
          (d, mem) now).1.1 = d := hd
      cases hact : (c.next (d, mem) now).2 with
      | throw e =>
          refine ⟨none, ?_, ?_, fun _ => rfl⟩
          · rw [hnext]; exact .throws h ⟨c, h, e, rfl, hact⟩
          · rw [Inlined.next, hact]; exact .thrown h e
      | coReturn v =>
          refine ⟨some h, .of_eq hnext _, ?_, ?_⟩
          · rw [Inlined.next, hact]; exact .left h _
          · rw [Inlined.next, hact]; exact fun hf => by cases hf
      | tau c' =>
          rw [hact] at hall
          refine ⟨some h, .of_eq hnext _, ?_, ?_⟩
          · rw [Inlined.next, hact]; exact .inside hall h
          · rw [Inlined.next, hact]; exact fun hf => by cases hf
      | await | create | declare | move | bind =>
          rw [hact] at hall
          refine ⟨some h, .of_eq hnext _, ?_, ?_⟩
          · rw [Inlined.next, hact]; exact fun r => .inside (hall r) h
          · rw [Inlined.next, hact]; exact fun hf => by cases hf
  | left h v => exact ⟨some h, .keeps _, .releasing h, fun hf => by cases hf⟩
  | thrown h e => exact ⟨none, .keeps _, trivial, fun _ => rfl⟩
  | releasing h =>
      have hv : d.valid h = true := hx h rfl
      have hcan : (mutex V E G.handle).can (Mutex.Op.release h) d = true := rfl
      have hp : (mutex V E G.handle).perform (Mutex.Op.release h) d =
          (.ok none, { d with valid := Function.update d.valid h false, owned := false }) := by
        simp only [mutex, hv, if_true]
      have hn := Inlined.within_enter (C := G.client) (k := fun r => .user (.released r))
        (m := (d, mem)) hcan hp rfl now
      refine (congrArg (Keeps d _ (some h)) hn).mpr ?_
      exact ⟨none, .releases h, fun _ => .waking, fun _ => rfl⟩
  | waking => exact ⟨none, .keeps _, .released .unit, fun _ => rfl⟩
  | released v => exact ⟨none, .keeps _, trivial, fun _ => rfl⟩

end Guarded

end Cxxdes
