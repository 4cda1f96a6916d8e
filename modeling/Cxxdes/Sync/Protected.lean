-- SUMMARY: Data that only sections of a mutex change does not change while a process is suspended inside its section.
import Cxxdes.Sync.Sections

/-!
# Protected data

What a mutex is for: data that the bodies of a model change in sections only is changed by one
process at a time. While a process is inside its section, through all its suspensions, the
data changes by its own actions only.
-/

namespace Cxxdes

/-- Whatever the body calls or goes on with meets `p`. -/
def SubAction.All {U B V E : Type} (p : B → Prop) : SubAction U B V E → Prop
  | .act a => a.All p
  | .call g k => p g ∧ ∀ r, p (k r)

namespace Guarded

variable {V E : Type} {G : Guarded V E} {α : Type}

/-- A part of the memory that only sections change. The bodies outside sections are those of the
coroutine functions, with what they call. -/
structure Protected (G : Guarded V E) (α : Type) where
  get : G.Memory → α
  outside : G.Body → Prop
  start : ∀ u, outside (G.start u)
  stays : ∀ b owned m now, outside b → (G.next b owned m now).2.All outside
  get_next : ∀ b owned m now, outside b → get (G.next b owned m now).1 = get m

variable {D : Protected G α}

/-! ### Bodies outside sections -/

/-- The evaluation of a body outside sections, with the subroutines it has called. -/
inductive Outer (D : Protected G α) : Inlined G.client.sub → Prop where
  | user (b : G.Body) (hb : D.outside b) : Outer D (.body (.user (.user b)))
  | within {c : Inlined G.client.sub} (h : Outer D c) (k : Result V E → G.Body)
      (hk : ∀ r, D.outside (k r)) : Outer D (.within c fun r => .user (.user (k r)))

/-- A body of `operator+`. -/
def Stage.IsCoWith : G.Stage → Prop
  | .user _ => False
  | _ => True

/-- The evaluation of a body of `operator+`. -/
inductive OfCoWith : Inlined G.client.sub → Prop where
  | body (b : G.Stage) (hb : b.IsCoWith) : OfCoWith (.body (.user b))
  | within (c : Inlined G.client.sub) (k : Result V E → G.client.Stage)
      (hk : ∀ r, ∃ b : G.Stage, k r = .user b ∧ b.IsCoWith) : OfCoWith (.within c k)

theorem Outer.next {c : Inlined G.client.sub} (h : Outer D c) (m : G.client.sub.Memory)
    (now : Int) :
    D.get (c.next m now).1.2 = D.get m.2 ∧ (c.next m now).2.All (Outer D) := by
  induction h with
  | user b hb =>
      have hstays := D.stays b m.1.owned m.2 now hb
      rw [next_user]
      refine ⟨D.get_next b m.1.owned m.2 now hb, ?_⟩
      cases hact : (G.next b m.1.owned m.2 now).2 with
      | call g k =>
          rw [hact] at hstays
          exact .within (.user g hstays.1) k hstays.2
      | act a =>
          rw [hact] at hstays
          cases a with
          | tau => exact .user _ hstays
          | coReturn | throw => trivial
          | await | create | declare | move | bind => exact fun r => .user _ (hstays r)
  | @within c hc k hk ih =>
      rw [Inlined.next]
      refine ⟨ih.1, ?_⟩
      have hall := ih.2
      cases hact : (c.next m now).2 with
      | coReturn v => exact .user _ (hk _)
      | throw e => exact .user _ (hk _)
      | tau c' => rw [hact] at hall; exact .within hall k hk
      | await | create | declare | move | bind =>
          rw [hact] at hall
          exact fun r => .within (hall r) k hk

theorem OfCoWith.next {i : Inlined G.client.sub} (h : OfCoWith i) (m : G.client.sub.Memory)
    (now : Int) : (i.next m now).2.All OfCoWith := by
  cases h with
  | body b hb =>
      cases b with
      | user b => exact hb.elim
      | acquire f => exact .within _ _ fun r => ⟨_, rfl, trivial⟩
      | acquired f r | left f r | released r =>
          cases r with
          | error e => trivial
          | ok v => first
            | exact OfCoWith.within _ _ fun r => ⟨_, rfl, trivial⟩
            | trivial
  | within c k hk =>
      rw [Inlined.next]
      have hbody : ∀ r, OfCoWith (.body (S := G.client.sub) (k r)) := by
        intro r
        obtain ⟨b, hb, hco⟩ := hk r
        rw [hb]
        exact .body b hco
      cases (c.next m now).2 with
      | coReturn v => exact hbody _
      | throw e => exact hbody _
      | tau c' => exact .within c' k hk
      | await | create | declare | move | bind => exact fun r => .within _ k hk

/-- A frame that is neither of a body outside sections nor of an `operator+` does not occur. -/
def FrameCivil (D : Protected G α) : G.client.program.Frame → Prop
  | .user i => Outer D i ∨ OfCoWith i
  | _ => True

theorem frameCivil_closed (D : Protected G α) : Frame.Closed (FrameCivil D) where
  starts f hf := by
    cases hf with
    | seq as => trivial
    | user u =>
        cases u with
        | user u => exact .inl (.user _ (D.start u))
        | coWith f => exact .inr (.body _ trivial)
  next f m now hf := by
    cases f with
    | raise e => trivial
    | seq as =>
        cases as with
        | nil => trivial
        | cons a as =>
            cases a with
            | ref o => rintro (⟨_ | _⟩ | _) <;> trivial
            | timeout | wait | wake | coroutine | call | sequential | async | comp =>
                exact fun r => by cases r <;> trivial
    | user i =>
        rcases hf with h | h
        · exact Action.all_map ((h.next m now).2.imp fun _ h => .inl h)
        · exact Action.all_map ((h.next m now).imp fun _ h => .inr h)

/-! ### What changes the data -/

/-- An action of a body that is not inside a section. -/
theorem Holds.get_next {i : Inlined G.client.sub} (hi : Holds i none)
    (h : Outer D i ∨ OfCoWith i) (m : G.client.sub.Memory) (now : Int) :
    D.get (i.next m now).1.2 = D.get m.2 := by
  rcases h with h | h
  · exact (h.next m now).1
  · cases hi with
    | acquire | acquiring | thrown | waking | released => exact rfl
    | plain hc =>
        -- no body of `operator+` is one of the model
        cases hc with
        | user b =>
            cases h with
            | body b hb => exact hb.elim
        | within hc k =>
            cases h with
            | within c k hk =>
                obtain ⟨b, hb, hco⟩ := hk (.ok .unit)
                cases hb
                exact hco.elim

/-- Every transition, with the processes inlined. -/
theorem Guards.get_step {x : Lock} {s s' : State G.client.program} (h : Guards x s)
    (hs : s.Tidy False) (hf : s.Frames (FrameCivil D)) {l : Label G.client.program}
    (hstep : Step s l s') :
    D.get s'.memory.2 = D.get s.memory.2 ∨ ∃ c n, l = .exec c ∧ x = .held c n := by
  cases hstep with
  | call | elsewhere | advance => exact .inl rfl
  | bind a =>
      have he : Edits none 0 False s (s.bind a) := bind_call_edits hs a (fun hf => hf.elim)
      exact .inl (congrArg (fun m => D.get m.2) he.ext.memory)
  | step t _ htop hst => exact .inl (congrArg (fun m => D.get m.2) (step_stepped hst).memory)
  | reset =>
      unfold State.reset
      rw [State.destroyAll_eq]
      exact .inl rfl
  | exec c _ hex =>
      cases hx : x.handle c with
      | some n => exact .inr ⟨c, n, rfl, Lock.eq_held hx⟩
      | none =>
          obtain ⟨f, hst, hact⟩ := exec_acted hex
          have hmem : s'.memory = (f.next s.memory s.now).1 :=
            hact.memory ⟨hs.fresh, hs.object⟩
          have hholds := h.procs c
          have hcivil := hf c
          rw [hst] at hholds hcivil
          rw [hx] at hholds
          rw [hmem]
          cases f with
          | raise e => exact .inl rfl
          | seq as =>
              cases as with
              | nil => exact .inl rfl
              | cons a as => cases a <;> exact .inl rfl
          | user i => exact .inl (Holds.get_next hholds hcivil s.memory s.now)

/-- `Guarding`, with what the frames of the processes may be. -/
structure Protecting (D : Protected G α) (x : Lock) (s : State (trampoline G.client.sub)) :
    Prop where
  guarding : Guarding x s
  civil : s.inline.Frames (FrameCivil D)

namespace Protecting

variable {x : Lock} {s s' : State (trampoline G.client.sub)}
  {K : State (trampoline G.client.sub) → Label (trampoline G.client.sub) → Prop}

theorem init (mem : G.Memory) : Protecting D .free (State.init (Mutex.init, mem)) where
  guarding := .init mem
  civil _ := trivial

theorem step (h : Protecting D x s) {l : Label (trampoline G.client.sub)} (hstep : Step s l s') :
    ∃ x', Lock.Next s.inline l.inline x x' ∧ Protecting D x' s' ∧
      (D.get s'.memory.2 = D.get s.memory.2 ∨ ∃ c n, l = .exec c ∧ x = .held c n) := by
  obtain ⟨x', hnext, h'⟩ := h.guarding.step hstep
  rcases Client.step_inline hstep h.guarding.frames with ⟨h1, -⟩ | ⟨h1, -⟩
  · refine ⟨x', hnext, ⟨h', h1.frames (frameCivil_closed D) h.guarding.inlineTidy h.civil⟩, ?_⟩
    rcases h.guarding.guards.get_step h.guarding.inlineTidy h.civil h1 with hget | ⟨c, n, hl, hx⟩
    · exact .inl hget
    · exact .inr ⟨c, n, Label.exec_of_inline hl, hx⟩
  · exact ⟨x', hnext, ⟨h', by rw [h1]; exact h.civil⟩,
      .inl (congrArg (fun s : State G.client.program => D.get s.memory.2) h1)⟩

/-- A run in which `c`, which is inside its section, does not act. -/
theorem during {c : CoroId} {n : Nat} (h : Protecting D (.held c n) s)
    (hr : Transition.Runs Step (fun _ l => l ≠ .exec c) s s') :
    D.get s'.memory.2 = D.get s.memory.2 ∧
      ∃ x', (x' = .held c n ∨ x' = .lost) ∧ Protecting D x' s' := by
  refine hr.invariant (I := fun s' => D.get s'.memory.2 = D.get s.memory.2 ∧
    ∃ x', (x' = .held c n ∨ x' = .lost) ∧ Protecting D x' s') ?_ ⟨rfl, _, .inl rfl, h⟩
  rintro t l t' ⟨hget, x, hx, h⟩ hl hstep
  obtain ⟨x', hnext, h', hsame⟩ := h.step hstep
  constructor
  · rcases hsame with hsame | ⟨c', n', hexec, hheld⟩
    · exact hsame.trans hget
    · -- the one process that may change the data is `c`
      rcases hx with rfl | rfl
      · cases hheld
        exact absurd hexec hl
      · cases hheld
  · refine ⟨x', ?_, h'⟩
    rcases hx with rfl | rfl
    · cases hnext with
      | keeps => exact .inl rfl
      | throws | resets => exact .inr rfl
      | releases c n hexec => exact absurd (Label.exec_of_inline hexec) hl
    · cases hnext with
      | keeps => exact .inr rfl

/-- A run with a lost mutex. -/
theorem after_lost (h : Protecting D .lost s) (hr : Transition.Runs Step K s s') :
    D.get s'.memory.2 = D.get s.memory.2 := by
  have hall : D.get s'.memory.2 = D.get s.memory.2 ∧ Protecting D .lost s' := by
    refine hr.invariant (I := fun s' => D.get s'.memory.2 = D.get s.memory.2 ∧
      Protecting D .lost s') ?_ ⟨rfl, h⟩
    rintro t l t' ⟨hget, h⟩ - hstep
    obtain ⟨x', hnext, h', hsame⟩ := h.step hstep
    cases hnext with
    | keeps =>
        refine ⟨?_, h'⟩
        rcases hsame with hsame | ⟨c, n, -, hheld⟩
        · exact hsame.trans hget
        · cases hheld
  exact hall.1

end Protecting

/-- In every run of processes that use a new mutex in sections only, and change a part of the
memory in sections only: the part is changed by actions of the process inside its section
only; while that process does not act, nobody else enters a section and the part stays as it
is, even after a `reset()`; and it is never changed again once a section has been abandoned. -/
theorem co_with_protects (D : Protected G α) {mem : G.Memory}
    {s : State (trampoline G.client.sub)}
    (hr : Transition.Runs Step (fun _ _ => True) (State.init (Mutex.init, mem)) s) :
    (∀ l s', Step s l s' → D.get s'.memory.2 ≠ D.get s.memory.2 →
      ∃ c, l = .exec c ∧ Inside s.inline c) ∧
    (∀ c s', Inside s.inline c → Transition.Runs Step (fun _ l => l ≠ .exec c) s s' →
      D.get s'.memory.2 = D.get s.memory.2 ∧ ∀ c', Inside s'.inline c' → c' = c) ∧
    (s.memory.1.owned = true → (∀ c, ¬ Inside s.inline c) →
      ∀ s', Transition.Runs Step (fun _ _ => True) s s' →
        D.get s'.memory.2 = D.get s.memory.2) := by
  obtain ⟨x, h⟩ : ∃ x, Protecting D x s := by
    refine hr.invariant (I := fun s => ∃ x, Protecting D x s) ?_ ⟨.free, .init mem⟩
    rintro s l s' ⟨x, h⟩ - hstep
    obtain ⟨x', -, h', -⟩ := h.step hstep
    exact ⟨x', h'⟩
  refine ⟨fun l s' hstep hchanged => ?_, fun c s' hin hruns => ?_,
    fun howned hno s' hruns => ?_⟩
  · obtain ⟨-, -, -, hsame | ⟨c, n, hexec, rfl⟩⟩ := h.step hstep
    · exact absurd hsame hchanged
    · exact ⟨c, hexec, (h.guarding.guards.inside_iff c).mpr ⟨n, rfl⟩⟩
  · obtain ⟨n, rfl⟩ := (h.guarding.guards.inside_iff c).mp hin
    obtain ⟨hget, x', hx', h'⟩ := h.during hruns
    refine ⟨hget, fun c' hin' => ?_⟩
    obtain ⟨n', rfl⟩ := (h'.guarding.guards.inside_iff c').mp hin'
    rcases hx' with heq | heq <;> cases heq
    rfl
  · obtain rfl := h.guarding.guards.eq_lost howned hno
    exact h.after_lost hruns

end Guarded

/-- A section that changes a counter before and after it waits. -/
def registry.act (b m : Nat) : Nat × SubAction (CoWith.Call Unit Nat) Nat Nat Unit :=
  if b = 0 then (m + 1, .act (.await (.wait 1 0 PriorityConsts.inherit none) fun _ => 1))
  else if b = 1 then (m + 1, .act (.coReturn none))
  else (m, .act (.coReturn none))

theorem registry.act_avoids (b m : Nat) (a : Action (CoWith.Call Unit Nat) Nat Nat Unit)
    (h : (act b m).2 = .act a) : a.Avoids 0 := by
  unfold act at h
  split at h
  · cases h; exact Nat.one_ne_zero
  · split at h <;> (cases h; trivial)

/-- A model whose sections count. -/
def registry : Guarded Nat Unit where
  User := Unit
  Body := Nat
  Memory := Nat
  event := 0
  handle := id
  handleOf := id
  handleOf_handle := Eq.refl
  start _ := 2
  next b _ m _ := registry.act b m
  keepsOut b _ m _ a h := registry.act_avoids b m a h

namespace registry

def counter : Guarded.Protected registry Nat where
  get m := m
  outside b := b = (2 : Nat)
  start _ := rfl
  stays b owned m now hb := by subst hb; trivial
  get_next b owned m now hb := by subst hb; rfl

/-- A process has counted once in its section, and another one waits for its own. -/
def counted : State (trampoline registry.client.sub) :=
  (State.init (Mutex.init, (0 : Nat))).after State.calm
    ([.bind (.call (.coWith (0 : Nat)) {}), .bind (.call (.coWith (0 : Nat)) {}), .step 0] ++
      List.replicate 11 (.exec 0) ++ [.step 2] ++ List.replicate 5 (.exec 1))

end registry

theorem co_with_protects_registry : registry.counter.get registry.counted.memory.2 = 1 ∧
    ∀ s', Transition.Runs Step (fun _ l => l ≠ .exec 0) registry.counted s' →
      registry.counter.get s'.memory.2 = registry.counter.get registry.counted.memory.2 := by
  have hin : Guarded.Inside registry.counted.inline 0 := by decide +kernel
  have hr : Transition.Runs Step (fun _ _ => True) (State.init (Mutex.init, (0 : Nat)))
      registry.counted := State.after_runs (fun _ _ _ => trivial) _ _
  have hprotects := Guarded.co_with_protects registry.counter hr
  exact ⟨by decide +kernel, fun s' hruns => (hprotects.2.1 0 s' hin hruns).1⟩

end Cxxdes
