-- SUMMARY: At most one process is inside a section of a mutex, and a section that ends abnormally keeps the mutex for ever.
import Cxxdes.Sync.CoWith
import Cxxdes.Run.Trace
import Cxxdes.Run.Replay

/-!
# Mutual exclusion of sections

To its sections a mutex is free, or held by one process with one handle object, or lost: a
process that leaves its section by an exception, or is destroyed in it by `reset()`, does not
release its handle, which nobody else has. A lost mutex is never acquired again.
-/

namespace Cxxdes

variable {P : Program}

/-- The process has begun and has not ended. -/
def Status.Underway : Status P → Prop
  | .running _ => True
  | .suspended _ _ => True
  | _ => False

/-- A body goes on after an action that does not end it. -/
theorem Ran.underway {s s' : State P} {nn : Prop} {c : CoroId}
    {act : Action P.User P.Frame P.Value P.Error} (h : Ran nn s c act s')
    (hact : act.ends = false) : (s'.coros c).status.Underway := by
  cases h with
  | continues s1 _ he hc =>
      obtain ⟨g, hco⟩ := hc.coros
      rw [hco, Function.update_self]
      trivial
  | throws a k sm s1 _ _ hthrow hm he hc =>
      obtain ⟨g, hco⟩ := hc.coros
      rw [hco, Function.update_self]
      trivial
  | suspends a a' k sm s1 =>
      rw [suspend_coros, Function.update_self]
      trivial
  | returns v h | fails e h =>
      rw [h] at hact
      cases hact

/-- `step()` moves a process from one frame to another one of the same body, at most. -/
theorem Did.Step.status {s s' : State P} {t : TokenId} (h : Did.Step t s s') (c : CoroId) :
    (∀ J : P.Frame → Prop, (s.coros c).status.All J → (s'.coros c).status.All J) ∧
      ((s.coros c).status.Underway → (s'.coros c).status.Underway) := by
  have hupdate : ∀ {d : CoroId} {f : P.Frame},
      s'.coros = Function.update s.coros d { s.coros d with status := .running f } →
      (∀ J : P.Frame → Prop, (s.coros d).status.All J → J f) →
      (∀ J : P.Frame → Prop, (s.coros c).status.All J → (s'.coros c).status.All J) ∧
        ((s.coros c).status.Underway → (s'.coros c).status.Underway) := by
    intro d f hco hJ
    rw [hco]
    by_cases hcd : c = d
    · subst hcd
      rw [Function.update_self]
      exact ⟨hJ, fun _ => trivial⟩
    · rw [Function.update_of_ne hcd]
      exact ⟨fun _ h => h, id⟩
  cases h with
  | passes h => rw [h.coros]; exact ⟨fun _ h => h, id⟩
  | starts d f hst h => exact hupdate h.coros fun J hJ => by rw [hst] at hJ; exact hJ
  | resumes d a k r hst hr h => exact hupdate h.coros fun J hJ => by rw [hst] at hJ; exact hJ r

/-- Only an action of the body of `c` is seen as one of its inlined version. -/
theorem Label.exec_of_inline {S : SubProgram} {l : Label (trampoline S)} {c : CoroId}
    (h : l.inline = .exec c) : l = .exec c := by
  cases l with
  | exec c' => cases h; rfl
  | call | bind | elsewhere | step | advance | reset => cases h

namespace Guarded

variable {V E : Type} {G : Guarded V E}

/-! ### Frames -/

/-- `Holds` for coroutine frames. -/
def FrameHolds (G : Guarded V E) (x : Option Nat) : G.client.program.Frame → Prop
  | .user i => Holds i x
  | _ => x = none

theorem frameHolds_starts {f : G.client.program.Frame} (hf : f.Starts) :
    FrameHolds G none f := by
  cases hf with
  | seq as => exact rfl
  | user u =>
      cases u with
      | user u => exact .plain (.user _)
      | coWith f => exact .acquire f

/-- The handle object with which the evaluation of a body holds the mutex. -/
def holder : Inlined G.client.sub → Option Nat
  | .body (.user (.acquired _ (.ok v))) => some (G.held v)
  | .body (.user (.left h (.ok _))) => some h
  | .within c k =>
    match k (.ok .unit) with
    | .user (.left h _) => some h
    | .user (.released _) =>
      match c with
      | .body (.enter (.release h)) => some h
      | _ => none
    | _ => none
  | _ => none

theorem Holds.holder_eq {i : Inlined G.client.sub} {x : Option Nat} (h : Holds i x) :
    holder i = x := by
  cases h with
  | acquired f h => exact congrArg some (G.handleOf_handle h)
  | plain h => cases h <;> rfl
  | acquire | acquiring | inside | left | thrown | releasing | waking | released => rfl

def frameHolder : G.client.program.Frame → Option Nat
  | .user i => holder i
  | _ => none

theorem FrameHolds.holder_eq {f : G.client.program.Frame} {x : Option Nat}
    (h : FrameHolds G x f) : frameHolder f = x := by
  cases f with
  | user i => exact Holds.holder_eq h
  | seq as | raise e => exact h.symm

/-- The handle object with which process `c` holds the mutex: it has acquired the mutex in
an `operator+` and has neither released it nor left the section by an exception. -/
def heldBy (s : State G.client.program) (c : CoroId) : Option Nat :=
  match (s.coros c).status with
  | .running f => frameHolder f
  | .suspended _ k => frameHolder (k (.ok .unit))
  | _ => none

/-- Process `c` is inside its section. -/
def Inside (s : State G.client.program) (c : CoroId) : Prop := (heldBy s c).isSome = true

instance (s : State G.client.program) (c : CoroId) : Decidable (Inside s c) :=
  inferInstanceAs (Decidable (_ = true))

/-- The body of `c` runs, and its section is about to end with an exception. -/
def SectionThrows (s : State G.client.program) (c : CoroId) : Prop :=
  ∃ i : Inlined G.client.sub, (s.coros c).status = .running (.user i) ∧ Throws i s.memory s.now

/-! ### The mutex and its holder -/

/-- What a mutex is to its sections. -/
inductive Lock where
  | free
  | held (c : CoroId) (h : Nat)
  | lost

/-- The handle object with which `c` holds the mutex. -/
def Lock.handle : Lock → CoroId → Option Nat
  | .held c h, c' => if c' = c then some h else none
  | _, _ => none

def Lock.Fits : Lock → Mutex → Prop
  | .free, d => d.owned = false
  | .held _ h, d => d.owned = true ∧ d.valid h = true
  | .lost, d => d.owned = true

theorem Lock.eq_held {x : Lock} {c : CoroId} {h : Nat} (hx : x.handle c = some h) :
    x = .held c h := by
  cases x with
  | free | lost => cases hx
  | held c0 h0 =>
      simp only [handle] at hx
      split at hx
      · next heq =>
          subst heq
          cases hx
          rfl
      · cases hx

/-- What a transition makes of the mutex. -/
inductive Lock.Next (s : State G.client.program) (l : Label G.client.program) :
    Lock → Lock → Prop where
  | keeps (x : Lock) : Next s l x x
  | acquires (c : CoroId) (h : Nat) (hl : l = .exec c) : Next s l .free (.held c h)
  | releases (c : CoroId) (h : Nat) (hl : l = .exec c) : Next s l (.held c h) .free
  | throws (c : CoroId) (h : Nat) (hl : l = .exec c) (ht : SectionThrows s c) :
      Next s l (.held c h) .lost
  | resets (c : CoroId) (h : Nat) (hl : l = .reset) : Next s l (.held c h) .lost

/-- The mutex is as `x` says, and each process holds it as `x` says. -/
structure Guards (x : Lock) (s : State G.client.program) : Prop where
  mutex : x.Fits s.memory.1
  procs : ∀ c, (s.coros c).status.All (FrameHolds G (x.handle c))
  underway : ∀ c h, x = .held c h → (s.coros c).status.Underway

namespace Guards

variable {x : Lock} {s s' : State G.client.program}

theorem init (mem : G.Memory) : Guards (G := G) .free (State.init (Mutex.init, mem)) where
  mutex := rfl
  procs _ := trivial
  underway _ _ hx := by cases hx

/-- No process that holds the mutex is touched. -/
theorem called (h : Guards x s) (hmem : s'.memory = s.memory)
    (hst : ∀ c, (s'.coros c).status = (s.coros c).status ∨
      ∃ f, f.Starts ∧ (s'.coros c).status = .initial f)
    (hold : ∀ c, (s.coros c).status.Underway → (s'.coros c).status = (s.coros c).status) :
    Guards x s' where
  mutex := by rw [hmem]; exact h.mutex
  procs c := by
    rcases hst c with h1 | ⟨f, hf, h1⟩
    · rw [h1]; exact h.procs c
    · cases hx : x.handle c with
      | none => rw [h1]; exact frameHolds_starts hf
      | some n =>
          rw [hold c (h.underway c n (Lock.eq_held hx)), ← hx]
          exact h.procs c
  underway c n hx := by
    rw [hold c (h.underway c n hx)]
    exact h.underway c n hx

/-- What an action of a body does to the mutex and to the body. -/
theorem next (h : Guards x s) {c : CoroId} {f : G.client.program.Frame}
    (hst : (s.coros c).status = .running f) :
    ∃ y, Passes s.memory.1 (SectionThrows s c) (x.handle c) (f.next s.memory s.now).1.1 y ∧
      (s.next f).All (FrameHolds G y) ∧ ((s.next f).ends = true → y = none) := by
  have hf := h.procs c
  rw [hst] at hf
  cases f with
  | raise e =>
      have hx : x.handle c = none := hf
      rw [hx]
      exact ⟨none, .keeps none, trivial, fun _ => rfl⟩
  | seq as =>
      have hx : x.handle c = none := hf
      rw [hx]
      cases as with
      | nil => exact ⟨none, .keeps none, trivial, fun _ => rfl⟩
      | cons a as =>
          cases a with
          | ref o =>
              refine ⟨none, .keeps none, ?_, fun _ => rfl⟩
              rintro (⟨_ | _⟩ | _) <;> exact rfl
          | timeout | wait | wake | coroutine | call | sequential | async | comp =>
              refine ⟨none, .keeps none, fun r => ?_, fun _ => rfl⟩
              cases r <;> exact rfl
  | user i =>
      have hvalid : ∀ n, x.handle c = some n → s.memory.1.valid n = true := by
        intro n hn
        have hm := h.mutex
        rw [Lock.eq_held hn] at hm
        exact hm.2
      obtain ⟨y, hpass, hall, hends⟩ := Holds.next hf hvalid s.memory.2 s.now
      refine ⟨y, hpass.mono fun ht => ⟨i, hst, ht⟩, Action.all_map hall, ?_⟩
      intro he
      refine hends ?_
      rwa [← Action.ends_map Frame.user]

/-- Executing an action of a body. -/
theorem exec (h : Guards x s) (hs : s.Tidy False) {c : CoroId} (hex : s.exec c = .ok s') :
    ∃ x', Lock.Next s (.exec c) x x' ∧ Guards x' s' := by
  obtain ⟨f, hst, hact⟩ := exec_acted hex
  obtain ⟨g, hst', hran⟩ := exec_ran hs hex fun _ _ hf => hf.elim
  obtain rfl : f = g := Status.running.inj (hst.symm.trans hst')
  obtain ⟨y, hpass, hall, hends⟩ := h.next hst
  have htidy : (s.ran f).Tidy False := ⟨hs.fresh, hs.object⟩
  have hmem : s'.memory = (f.next s.memory s.now).1 := hact.memory htidy
  have hself : (s'.coros c).status.All (FrameHolds G y) := hact.status_self htidy hall
  have hgoes : ∀ n, y = some n → (s'.coros c).status.Underway := fun n hn => by
    refine hran.underway ?_
    cases he : (s.next f).ends with
    | false => rfl
    | true => rw [hends he] at hn; cases hn
  -- a process that holds the mutex is not touched by the actions of others
  have hother : ∀ c' ≠ c, (s'.coros c').status.All (FrameHolds G (x.handle c')) ∧
      ∀ n, x.handle c' = some n → (s'.coros c').status.Underway := by
    intro c' hne
    have hold : (s.coros c').status.Underway →
        (s'.coros c').status = (s.coros c').status := fun hu =>
      hran.others.status c' hne (hs.fresh.lt_of_status (by
        intro heq
        rw [heq] at hu
        exact hu))
    refine ⟨?_, fun n hx => ?_⟩
    · rcases hact.status_other htidy hne with h1 | ⟨g, hg, h1⟩
      · rw [h1]; exact h.procs c'
      · cases hx : x.handle c' with
        | none => rw [h1]; exact frameHolds_starts hg
        | some n =>
            rw [hold (h.underway c' n (Lock.eq_held hx)), ← hx]
            exact h.procs c'
    · have hu := h.underway c' n (Lock.eq_held hx)
      rw [hold hu]
      exact hu
  have hbuild : ∀ x' : Lock, x'.Fits (f.next s.memory s.now).1.1 → x'.handle c = y →
      (∀ c' ≠ c, x'.handle c' = x.handle c') → Guards x' s' := by
    intro x' hfits hc hrest
    refine ⟨by rw [hmem]; exact hfits, fun c' => ?_, fun c' n hx => ?_⟩
    · by_cases hcc : c' = c
      · rw [hcc, hc]; exact hself
      · rw [hrest c' hcc]; exact (hother c' hcc).1
    · have hn : x'.handle c' = some n := by rw [hx]; exact if_pos rfl
      by_cases hcc : c' = c
      · rw [hcc] at hn ⊢
        exact hgoes n (hc.symm.trans hn)
      · exact (hother c' hcc).2 n ((hrest c' hcc).symm.trans hn)
  generalize hd : (f.next s.memory s.now).1.1 = d at hpass hbuild
  generalize hx : x.handle c = a at hpass
  cases hpass with
  | keeps => exact ⟨x, .keeps x, hbuild x h.mutex hx fun _ _ => rfl⟩
  | acquires hfree =>
      obtain rfl : x = .free := by
        have hm := h.mutex
        cases x with
        | free => rfl
        | held c0 h0 => exact absurd hm.1 (by simp [hfree])
        | lost => exact absurd (show s.memory.1.owned = true from hm) (by simp [hfree])
      refine ⟨.held c s.memory.1.nextHandle, .acquires c _ rfl, hbuild _ ⟨rfl, ?_⟩ (if_pos rfl)
        fun c' hne => if_neg hne⟩
      simp [Mutex.newHandle]
  | releases n =>
      obtain rfl := Lock.eq_held hx
      exact ⟨.free, .releases c n rfl, hbuild .free rfl rfl fun c' hne => (if_neg hne).symm⟩
  | throws n ht =>
      obtain rfl := Lock.eq_held hx
      exact ⟨.lost, .throws c n rfl ht,
        hbuild .lost h.mutex.1 rfl fun c' hne => (if_neg hne).symm⟩

/-- `reset()` destroys the process that holds the mutex. -/
theorem reset (h : Guards x s) : ∃ x', Lock.Next s .reset x x' ∧ Guards x' s.reset := by
  have hmem : s.reset.memory = s.memory := by
    unfold State.reset
    rw [State.destroyAll_eq]
  have hst : ∀ c, (s.reset.coros c).status =
      if c ∈ s.managed then .finished else (s.coros c).status := by
    intro c
    unfold State.reset
    rw [State.destroyAll_eq]
    by_cases hc : c ∈ s.managed
    · simp only [hc, if_true]
    · simp only [hc, if_false]
  have hall : ∀ c, (s.reset.coros c).status.All (FrameHolds G (x.handle c)) := by
    intro c
    rw [hst]
    split
    · trivial
    · exact h.procs c
  by_cases hheld : ∃ c n, x = .held c n ∧ c ∈ s.managed
  · obtain ⟨c, n, rfl, hc⟩ := hheld
    refine ⟨.lost, .resets c n rfl, by rw [hmem]; exact h.mutex.1, fun c' => ?_,
      fun _ _ hx => by cases hx⟩
    by_cases hcc : c' = c
    · subst hcc
      rw [hst, if_pos hc]
      trivial
    · have hrest := hall c'
      rwa [show (Lock.held c n).handle c' = none from if_neg hcc] at hrest
  · refine ⟨x, .keeps x, by rw [hmem]; exact h.mutex, hall, fun c n hx => ?_⟩
    rw [hst, if_neg fun hc => hheld ⟨c, n, hx, hc⟩]
    exact h.underway c n hx

/-- Every transition. -/
theorem step (h : Guards x s) (hs : s.Tidy False) {l : Label G.client.program}
    (hstep : Step s l s') : ∃ x', Lock.Next s l x x' ∧ Guards x' s' := by
  have hunderway : ∀ {c : CoroId}, (s.coros c).status.Underway → c < s.nextCoro := fun hu =>
    hs.fresh.lt_of_status (by
      intro heq
      rw [heq] at hu
      exact hu)
  cases hstep with
  | call f o =>
      have he : Edits none s.nextToken False s (s.newCoro (.user (G.client.program.start f)) o) :=
        .single (.newCoro _ o (.user f) (fun hf => hf.elim))
      exact ⟨x, .keeps x, h.called rfl he.status_cases fun c hu =>
        (he.ext.coro c (hunderway hu)).status⟩
  | bind a =>
      have he : Edits none s.nextToken False s (s.bind a) :=
        bind_call_edits hs a (fun hf => hf.elim)
      exact ⟨x, .keeps x, h.called he.ext.memory he.status_cases fun c hu =>
        (he.ext.coro c (hunderway hu)).status⟩
  | elsewhere c henv =>
      have hsame : ∀ c', ((s.setCoro c { s.coros c with env := .elsewhere }).coros c').status =
          (s.coros c').status := by
        intro c'
        by_cases hc : c' = c
        · subst hc; simp [State.setCoro]
        · simp [State.setCoro, Function.update_of_ne hc]
      exact ⟨x, .keeps x, h.called rfl (fun c' => .inl (hsame c')) fun c' _ => hsame c'⟩
  | advance deadline =>
      exact ⟨x, .keeps x, h.called rfl (fun _ => .inl rfl) fun _ _ => rfl⟩
  | step t _ htop hst =>
      have hstatus := (step_stepped hst).did.status
      refine ⟨x, .keeps x, ?_, fun c => (hstatus c).1 _ (h.procs c),
        fun c n hx => (hstatus c).2 (h.underway c n hx)⟩
      rw [(step_stepped hst).memory]
      exact h.mutex
  | exec c _ hex => exact h.exec hs hex
  | reset hcur hrun => exact h.reset

/-- The states of the processes tell who holds the mutex. -/
theorem heldBy_eq (h : Guards x s) (c : CoroId) : heldBy s c = x.handle c := by
  have hall := h.procs c
  have hgoes : ∀ n, x.handle c = some n → (s.coros c).status.Underway := fun n hn =>
    h.underway c n (Lock.eq_held hn)
  unfold heldBy
  cases hst : (s.coros c).status with
  | running f => rw [hst] at hall; exact hall.holder_eq
  | suspended a k => rw [hst] at hall; exact (hall (.ok .unit)).holder_eq
  | initial f | finished =>
      rw [hst] at hgoes
      cases hx : x.handle c with
      | none => rfl
      | some n => exact (hgoes n hx).elim

theorem inside_iff (h : Guards x s) (c : CoroId) : Inside s c ↔ ∃ n, x = .held c n := by
  unfold Inside
  rw [h.heldBy_eq, Option.isSome_iff_exists]
  constructor
  · rintro ⟨n, hn⟩
    exact ⟨n, Lock.eq_held hn⟩
  · rintro ⟨n, rfl⟩
    exact ⟨n, if_pos rfl⟩

theorem owned (h : Guards x s) (hx : x ≠ .free) : s.memory.1.owned = true := by
  have hm := h.mutex
  cases x with
  | free => exact absurd rfl hx
  | held c n => exact hm.1
  | lost => exact hm

/-- A mutex that is acquired while no process is inside a section is lost. -/
theorem eq_lost (h : Guards x s) (howned : s.memory.1.owned = true) (hno : ∀ c, ¬ Inside s c) :
    x = .lost := by
  cases x with
  | free => exact absurd (h.mutex.symm.trans howned) (by decide)
  | held c n => exact absurd ((h.inside_iff c).mpr ⟨n, rfl⟩) (hno c)
  | lost => rfl

/-- The body that is about to release a handle object holds the mutex with it. -/
theorem valid (h : Guards x s) {c : CoroId} {i : Inlined G.client.sub} {n : Nat}
    (hst : (s.coros c).status = .running (.user i)) (htop : i.top = .enter (Mutex.Op.release n)) :
    s.memory.1.valid n = true := by
  have hi := h.procs c
  rw [hst] at hi
  have hx : x.handle c = some n := Holds.top_release hi htop
  have hm := h.mutex
  rw [Lock.eq_held hx] at hm
  exact hm.2

end Guards

/-! ### Environments -/

/-- `Guards` for the environment of the machines. -/
structure Guarding (x : Lock) (s : State (trampoline G.client.sub)) : Prop where
  frames : s.Frames (Frame.Ok (Machine.evaluation G.client.sub))
  tidy : s.Tidy False
  inlineTidy : s.inline.Tidy False
  guards : Guards x s.inline

namespace Guarding

variable {x : Lock} {s s' : State (trampoline G.client.sub)}
  {K : State (trampoline G.client.sub) → Label (trampoline G.client.sub) → Prop}

theorem init (mem : G.Memory) : Guarding (G := G) .free (State.init (Mutex.init, mem)) where
  frames _ := trivial
  tidy := ⟨fun _ _ => rfl, by simp⟩
  inlineTidy := ⟨fun _ _ => rfl, by simp⟩
  guards := .init mem

theorem step (h : Guarding x s) {l : Label (trampoline G.client.sub)} (hstep : Step s l s') :
    ∃ x', Lock.Next s.inline l.inline x x' ∧ Guarding x' s' := by
  have hframes := hstep.frames (Machine.evaluation G.client.sub).closed h.tidy h.frames
  have htidy := hstep.tidy (fun hf => hf.elim) h.tidy
  rcases Client.step_inline hstep h.frames with ⟨h1, -⟩ | ⟨h1, -⟩
  · obtain ⟨x', hnext, hg⟩ := h.guards.step h.inlineTidy h1
    exact ⟨x', hnext, hframes, htidy, h1.tidy (fun hf => hf.elim) h.inlineTidy, hg⟩
  · exact ⟨x, .keeps x, hframes, htidy, by rw [h1]; exact h.inlineTidy, by rw [h1]; exact h.guards⟩

/-- A lost mutex stays lost. -/
theorem lost (h : Guarding .lost s) (hr : Transition.Runs Step K s s') : Guarding .lost s' := by
  refine hr.invariant (I := Guarding .lost) ?_ h
  intro s l s' h _ hstep
  obtain ⟨x', hnext, h'⟩ := h.step hstep
  cases hnext with
  | keeps => exact h'

end Guarding

/-- A process leaves its section without a release: its body throws, or `reset()` destroys it. -/
def Abandons (s : State (trampoline G.client.sub)) (l : Label (trampoline G.client.sub)) : Prop :=
  ∃ c, Inside s.inline c ∧ (l = .reset ∨ l = .exec c ∧ SectionThrows s.inline c)

/-- A mutex is lost only in a transition that abandons a section. -/
theorem Guarding.abandons {x : Lock} {s : State (trampoline G.client.sub)}
    {l : Label (trampoline G.client.sub)} (h : Guarding x s) (hx : x ≠ .lost)
    (hnext : Lock.Next s.inline l.inline x .lost) : Abandons s l := by
  cases hnext with
  | keeps => exact absurd rfl hx
  | throws c n hl ht =>
      exact ⟨c, (h.guards.inside_iff c).mpr ⟨n, rfl⟩, .inr ⟨Label.exec_of_inline hl, ht⟩⟩
  | resets c n hl =>
      refine ⟨c, (h.guards.inside_iff c).mpr ⟨n, rfl⟩, .inl ?_⟩
      cases l with
      | reset => rfl
      | call | bind | elsewhere | step | advance | exec => cases hl

/-- The ways out of a section. -/
theorem Guarding.leaves {x : Lock} {s s' : State (trampoline G.client.sub)}
    {l : Label (trampoline G.client.sub)} (h : Guarding x s) (hstep : Step s l s') {c : CoroId}
    (hin : Inside s.inline c) (hout : ¬ Inside s'.inline c) :
    (l = .exec c ∧ s'.memory.1.owned = false) ∨
      (s'.memory.1.owned = true ∧ (l = .reset ∨ l = .exec c ∧ SectionThrows s.inline c)) := by
  obtain ⟨n, rfl⟩ := (h.guards.inside_iff c).mp hin
  obtain ⟨x', hnext, h'⟩ := h.step hstep
  have hlost : x' = .lost →
      s'.memory.1.owned = true ∧ (l = .reset ∨ l = .exec c ∧ SectionThrows s.inline c) := by
    rintro rfl
    obtain ⟨c', hin', hl⟩ := h.abandons (by simp) hnext
    obtain ⟨n', heq⟩ := (h.guards.inside_iff c').mp hin'
    cases heq
    exact ⟨h'.guards.owned (by simp), hl⟩
  cases hnext with
  | keeps => exact absurd ((h'.guards.inside_iff c).mpr ⟨n, rfl⟩) hout
  | throws | resets => exact .inr (hlost rfl)
  | releases c n hl => exact .inl ⟨Label.exec_of_inline hl, h'.guards.mutex⟩

/-! ### Runs -/

theorem guarding_of_runs {K : State (trampoline G.client.sub) → Label (trampoline G.client.sub) →
    Prop} {mem : G.Memory} {s : State (trampoline G.client.sub)}
    (hr : Transition.Runs Step K (State.init (Mutex.init, mem)) s) : ∃ x, Guarding x s := by
  refine hr.invariant (I := fun s => ∃ x, Guarding x s) ?_ ⟨.free, .init mem⟩
  rintro s l s' ⟨x, h⟩ _ hstep
  obtain ⟨x', -, h'⟩ := h.step hstep
  exact ⟨x', h'⟩

/-- Every `release()` of an `operator+` finds its handle object valid. -/
theorem releases_ok {hist : List (mutex V E G.handle).Event}
    {s : State (trampoline G.client.sub)}
    (hr : G.client.History (fun _ _ => True) Mutex.init hist s) {c : CoroId} {n : Nat}
    {r : Except (Exn E) (Option V)} (hmem : .performed c (Mutex.Op.release n) r ∈ hist) :
    r = .ok none := by
  obtain ⟨mem, hr⟩ := hr.inline
  have hall : (∃ x, Guards x s.inline) ∧ ∀ ev ∈ hist, ∀ c n r,
      ev = .performed c (Mutex.Op.release n) r → r = .ok none := by
    refine hr.invariant (I := fun hist s => (∃ x, Guards x s) ∧ ∀ ev ∈ hist, ∀ c n r,
      ev = .performed c (Mutex.Op.release n) r → r = .ok none) ?_
      ⟨⟨.free, .init mem⟩, by simp⟩
    rintro hist s l s' hruns ⟨⟨x, h⟩, hok⟩ - hstep
    have htidy : s.Tidy False := Reachable.tidy ⟨(Mutex.init, mem), hruns⟩ (fun hf => hf.elim)
    obtain ⟨x', -, h'⟩ := h.step htidy hstep
    refine ⟨⟨x', h'⟩, fun ev hev c n r heq => ?_⟩
    rcases List.mem_append.mp hev with hold | hnew
    · exact hok ev hold c n r heq
    · rcases G.client.record_cases s l with he | ⟨c', i, -, hst, ⟨v, -, he⟩ | ⟨op, htop, -, he⟩⟩
      · rw [he] at hnew
        cases hnew
      · rw [he] at hnew
        cases (List.mem_singleton.mp hnew).symm.trans heq
      · rw [he] at hnew
        cases (List.mem_singleton.mp hnew).symm.trans heq
        have hv := h.valid hst htop
        simp [mutex, hv]
  exact hall.2 _ hmem c n r rfl

/-- In every run of processes that use a new mutex in sections only, with exceptions and resets:
at most one process is inside its section, and the mutex is acquired as long as it is; no
`release()` throws; a process leaves its section only by a release, which frees the mutex, by an
exception of the section, or by `reset()`; and a mutex that is acquired while no process is
inside a section stays so, so no section begins again. -/
theorem co_with_exclusive {hist : List (mutex V E G.handle).Event}
    {s : State (trampoline G.client.sub)}
    (hr : G.client.History (fun _ _ => True) Mutex.init hist s) :
    (∀ c c', Inside s.inline c → Inside s.inline c' → c = c') ∧
    (∀ c, Inside s.inline c → s.memory.1.owned = true) ∧
    (∀ c n r, .performed c (Mutex.Op.release n) r ∈ hist → r = .ok none) ∧
    (∀ l s' c, Step s l s' → Inside s.inline c → ¬ Inside s'.inline c →
      (l = .exec c ∧ s'.memory.1.owned = false) ∨
        (s'.memory.1.owned = true ∧ (l = .reset ∨ l = .exec c ∧ SectionThrows s.inline c))) ∧
    (s.memory.1.owned = true → (∀ c, ¬ Inside s.inline c) →
      ∀ s', Transition.Runs Step (fun _ _ => True) s s' →
        s'.memory.1.owned = true ∧ ∀ c, ¬ Inside s'.inline c) := by
  have hreleases := fun c n r => releases_ok hr (c := c) (n := n) (r := r)
  obtain ⟨mem, hr⟩ := hr
  obtain ⟨x, h⟩ := guarding_of_runs hr.runs
  refine ⟨fun c c' hc hc' => ?_, fun c hc => ?_, hreleases,
    fun l s' c hstep hin hout => h.leaves hstep hin hout, fun howned hno s' hruns => ?_⟩
  · obtain ⟨n, rfl⟩ := (h.guards.inside_iff c).mp hc
    obtain ⟨n', heq⟩ := (h.guards.inside_iff c').mp hc'
    cases heq
    rfl
  · obtain ⟨n, rfl⟩ := (h.guards.inside_iff c).mp hc
    exact h.guards.owned (by simp)
  · obtain rfl := h.guards.eq_lost howned hno
    have h' := h.lost hruns
    refine ⟨h'.guards.owned (by simp), fun c hc => ?_⟩
    obtain ⟨n, heq⟩ := (h'.guards.inside_iff c).mp hc
    cases heq

end Guarded

/-- A model whose sections wait for an event that nothing wakes. -/
def workshop : Guarded Nat Unit where
  User := Unit
  Body := Nat
  Memory := Unit
  event := 0
  handle := id
  handleOf := id
  handleOf_handle _ := rfl
  start _ := 1
  next b _ m _ := (m, match b with
    | 0 => .act (.await (.wait 1 0 PriorityConsts.inherit none) fun _ => 1)
    | _ => .act (.coReturn none))
  keepsOut b owned m now a h := by
    match b with
    | 0 => cases h; exact Nat.one_ne_zero
    | _ + 1 => cases h; trivial

namespace workshop

/-- Two processes enter their sections, and the second one waits. -/
def waiting : State (trampoline workshop.client.sub) :=
  (State.init (Mutex.init, ())).after State.calm
    ([.bind (.call (.coWith (0 : Nat)) {}), .bind (.call (.coWith (0 : Nat)) {}), .step 0] ++
      List.replicate 11 (.exec 0) ++ [.step 2] ++ List.replicate 5 (.exec 1))

theorem waiting_runs : Transition.Runs Step (fun s l => workshop.client.Private s.inline l.inline)
    (State.init (Mutex.init, ())) waiting := by
  unfold waiting
  exact State.after_runs Client.private_of_calm _ _

end workshop

theorem co_with_exclusive_workshop : workshop.waiting.memory.1.owned = true ∧
    ∀ c, Guarded.Inside workshop.waiting.inline c → c = 0 := by
  have hin : Guarded.Inside workshop.waiting.inline 0 := by decide +kernel
  obtain ⟨hist, hr⟩ : ∃ hist, workshop.client.History (fun _ _ => True) Mutex.init hist
      workshop.waiting := by
    obtain ⟨hist, hr⟩ := Transition.Recorded.of_runs
      (workshop.waiting_runs.mono fun _ _ _ => trivial)
    exact ⟨hist, (), hr⟩
  have hex := Guarded.co_with_exclusive hr
  exact ⟨hex.2.1 0 hin, fun c hc => hex.1 c 0 hc hin⟩

namespace Guarded

variable {V E : Type} {G : Guarded V E}

/-! ### Waiting for a section -/

/-- A run that loses the mutex has a transition that abandons a section. -/
theorem abandoned_of_runs {K : State (trampoline G.client.sub) → Label (trampoline G.client.sub) →
    Prop} {s0 s : State (trampoline G.client.sub)} (h0 : Guarding .free s0)
    (hr : Transition.Runs Step K s0 s) : ∃ x, Guarding x s ∧ (x = .lost → ∃ s1 l s2,
      Transition.Runs Step K s0 s1 ∧ Abandons s1 l ∧ Step s1 l s2 ∧
        Transition.Runs Step K s2 s) := by
  induction hr with
  | refl => exact ⟨.free, h0, fun hx => by cases hx⟩
  | @tail t u hr hstep ih =>
      obtain ⟨x, h, hlost⟩ := ih
      obtain ⟨l, hK, hstep⟩ := hstep
      obtain ⟨y, hnext, hy⟩ := h.step hstep
      refine ⟨y, hy, ?_⟩
      rintro rfl
      by_cases hx : x = .lost
      · obtain ⟨s1, l1, s2, hr1, hab, hs, hr2⟩ := hlost hx
        exact ⟨s1, l1, s2, hr1, hab, hs, hr2.tail hK hstep⟩
      · exact ⟨t, l, u, hr, h.abandons hx hnext, hstep, .refl u⟩

/-- In every run of processes that use a new mutex in sections only: when no token is pending and
no body runs, a process that is left waiting waits in `acquire()`, and either another process is
suspended inside its section, or a transition of the run has abandoned a section. -/
theorem co_with_waits {mem : G.Memory} {s : State (trampoline G.client.sub)}
    (hr : Transition.Runs Step (fun s l => G.client.Private s.inline l.inline)
      (State.init (Mutex.init, mem)) s) (hcur : s.current = none) (hq : s.queue = [])
    {c : CoroId} {op : Mutex.Op} (hb : State.Blocked (C := G.client) s.inline c op) :
    op = .acquire ∧
      ((∃ c' a k, c' ≠ c ∧ Inside s.inline c' ∧ (s.inline.coros c').status = .suspended a k) ∨
        ∃ s1 l s2, Transition.Runs Step (fun s l => G.client.Private s.inline l.inline)
            (State.init (Mutex.init, mem)) s1 ∧ Abandons s1 l ∧ Step s1 l s2 ∧
          Transition.Runs Step (fun s l => G.client.Private s.inline l.inline) s2 s) := by
  have hreach : G.client.Reaches s := ⟨(Mutex.init, mem), hr⟩
  have hcan := hreach.stopped (mutex_settles G.handle) hq hb
  obtain ⟨rfl, howned⟩ : op = .acquire ∧ s.memory.1.owned = true := by
    cases op with
    | acquire => exact ⟨rfl, by simpa [mutex] using hcan⟩
    | release | move | assign | destroy => cases hcan
  refine ⟨rfl, ?_⟩
  obtain ⟨x, h, hlost⟩ := abandoned_of_runs (.init mem) hr
  cases x with
  | free => exact absurd (h.guards.mutex.symm.trans howned) (by decide)
  | lost => exact .inr (hlost rfl)
  | held d n =>
      have hne : d ≠ c := by
        rintro rfl
        obtain ⟨a, k, i, hst, hk, htop⟩ := hb
        have hall := h.guards.procs d
        rw [hst] at hall
        have hi : FrameHolds G ((Lock.held d n).handle d) (k (.ok .unit)) := hall (.ok .unit)
        rw [hk] at hi
        have hnone := Holds.top_acquire hi htop
        rw [show (Lock.held d n).handle d = some n from if_pos rfl] at hnone
        cases hnone
      -- the process inside its section has begun, and nothing runs
      have hsole : s.inline.Sole := hreach.inline.sole fun _ _ h _ => h
      have hu := h.guards.underway d n rfl
      cases hst : (s.inline.coros d).status with
      | suspended a k =>
          exact .inl ⟨d, a, k, hne, (h.guards.inside_iff d).mpr ⟨n, rfl⟩, hst⟩
      | running f =>
          have hc : s.current = some d := hsole d f hst
          rw [hcur] at hc
          cases hc
      | initial f | finished =>
          rw [hst] at hu
          exact hu.elim

end Guarded

namespace Mutex

deriving instance DecidableEq for Op

end Mutex

instance (V E : Type) (handle : Nat → V) : DecidableEq (mutex V E handle).Op :=
  inferInstanceAs (DecidableEq Mutex.Op)

theorem co_with_waits_workshop : Mutex.Op.acquire = .acquire ∧
    ((∃ c a k, c ≠ 1 ∧ Guarded.Inside workshop.waiting.inline c ∧
      (workshop.waiting.inline.coros c).status = .suspended a k) ∨
      ∃ s1 l s2, Transition.Runs Step
          (fun s l => workshop.client.Private s.inline l.inline)
          (State.init (Mutex.init, ())) s1 ∧ Guarded.Abandons s1 l ∧ Step s1 l s2 ∧
        Transition.Runs Step (fun s l => workshop.client.Private s.inline l.inline) s2
          workshop.waiting) :=
  Guarded.co_with_waits workshop.waiting_runs
    (Option.isNone_iff_eq_none.mp (by decide +kernel)) (List.isEmpty_iff.mp (by decide +kernel))
    (State.blocked_of_operation (by decide +kernel))

end Cxxdes
