-- SUMMARY: Every coroutine frame is destroyed exactly once, unless a copy assignment overwrites the last handle of a process that was never started.
import Cxxdes.Lifetime.Frames

/-!
# Destruction

A process that has not been started exists because of its promise and of the handles that
point to it, so `ref_count() == 2` says that there is one handle left. `~coroutine()` asks
this question before the handle goes; `operator=` does not.
-/

namespace Cxxdes.Lifetime

open RefCount

/-- The processes that have not been started. Those of `lost` have no handle any more,
though their frames exist. -/
structure Held (lost : List CoroId) (s : Store) : Prop where
  unheld : ∀ c ∈ lost, (s.data c).started = false ∧ (s.data c).frame = true ∧ s.handlesTo c = 0
  held : ∀ c, (s.data c).started = false → (s.data c).frame = true → c ∉ lost →
    0 < s.handlesTo c
  gone : ∀ c, (s.data c).started = false → (s.data c).frame = false → s.handlesTo c = 0

/-- What holds between two operations. -/
structure Inv (lost : List CoroId) (s : Store) : Prop where
  counted : Counted [] s
  sound : Sound s.toTable
  held : Held lost s

variable {s s' : Store} {lost : List CoroId} {c : CoroId} {h other : HandleId}

/-- No handle changes, and a process without handles is not started. -/
theorem Held.same (h1 : Held lost s) (hto : ∀ d, s'.handlesTo d = s.handlesTo d)
    (hstays : ∀ d, s.handlesTo d = 0 → (s.data d).started = false → (s'.data d).started = false)
    (hback : ∀ d, (s'.data d).started = false →
      (s.data d).started = false ∧ (s'.data d).frame = (s.data d).frame) : Held lost s' where
  unheld d hd := by
    obtain ⟨hs, hf, hzero⟩ := h1.unheld d hd
    have hs' := hstays d hzero hs
    exact ⟨hs', (hback d hs').2.trans hf, (hto d).trans hzero⟩
  held d hs hf hd := by
    obtain ⟨hs, hsame⟩ := hback d hs
    rw [hto]
    exact h1.held d hs (hsame ▸ hf) hd
  gone d hs hf := by
    obtain ⟨hs, hsame⟩ := hback d hs
    rw [hto]
    exact h1.gone d hs (hsame ▸ hf)

/-- No handle changes, nor any process that has not been started. -/
theorem Held.started (h1 : Held lost s) (hh : s'.handles = s.handles)
    (hn : s'.nextHandle = s.nextHandle)
    (hstarted : ∀ d, (s'.data d).started = (s.data d).started)
    (hdata : ∀ d, (s.data d).started = false → s'.data d = s.data d) : Held lost s' :=
  h1.same (Store.handlesTo_congr hh hn) (fun d _ hs => (hstarted d).trans hs) fun d hs => by
    have hs' := (hstarted d).symm.trans hs
    exact ⟨hs', by rw [hdata d hs']⟩

/-- A process loses a handle, though not its last one unless its frame goes too. -/
theorem Held.dropHandle (h1 : Held lost s) (hpos : 0 < s.handlesTo c)
    (hother : ∀ d ≠ c, s'.handlesTo d = s.handlesTo d) (hdata : ∀ d ≠ c, s'.data d = s.data d)
    (hframe : (s'.data c).started = false → (s'.data c).frame = true → 0 < s'.handlesTo c)
    (hgone : (s'.data c).started = false → (s'.data c).frame = false → s'.handlesTo c = 0) :
    Held lost s' where
  unheld d hd := by
    obtain ⟨hs, hf, hzero⟩ := h1.unheld d hd
    have hne : d ≠ c := fun he => by
      rw [he] at hzero
      omega
    rw [hdata d hne, hother d hne]
    exact ⟨hs, hf, hzero⟩
  held d hs hf hd := by
    cases decEq d c with
    | isTrue he =>
        subst he
        exact hframe hs hf
    | isFalse hne =>
        rw [hdata d hne] at hs hf
        rw [hother d hne]
        exact h1.held d hs hf hd
  gone d hs hf := by
    cases decEq d c with
    | isTrue he =>
        subst he
        exact hgone hs hf
    | isFalse hne =>
        rw [hdata d hne] at hs hf
        rw [hother d hne]
        exact h1.gone d hs hf

namespace Inv

/-- A handle that points to a process that has not been started keeps its frame. -/
theorem frame_of_pointer (h1 : Inv lost s) (hp : s.pointer h = some c)
    (hs : (s.data c).started = false) : (s.data c).frame = true := by
  cases hf : (s.data c).frame with
  | true => rfl
  | false =>
      have hpos := Store.handlesTo_pos (h1.counted.lt_of_pointer hp) hp
      rw [h1.held.gone c hs hf] at hpos
      cases hpos

/-- The references to a process that has not been started: its promise, and its handles. -/
theorem count_of_frame (h1 : Inv lost s) (hs : (s.data c).started = false)
    (hf : (s.data c).frame = true) : s.counts.count c = s.handlesTo c + 1 := by
  have hno : ¬ (s.data c).started = true := by rw [hs]; exact nofun
  have hpromise : s.promise c = 1 := if_pos hf
  have hlisted : s.coroutines.count c = 0 :=
    List.count_eq_zero_of_not_mem fun hc => hno ((h1.sound.listed c).mp hc).1
  have hqueue : s.queue.count c = 0 :=
    List.count_eq_zero_of_not_mem fun hc => hno (h1.sound.used c (.inl hc))
  have hrunning : s.running c = 0 := if_neg fun hc => hno (h1.sound.used c (.inr (.inl hc)))
  have hkept : s.kept.count c = 0 :=
    List.count_eq_zero_of_not_mem fun hc => hno (h1.sound.used c (.inr (.inr (.inl hc))))
  have hparked : s.parked.count c = 0 :=
    List.count_eq_zero_of_not_mem fun hc => hno (h1.sound.used c (.inr (.inr (.inr hc))))
  have howned : internal (Finset.range s.nextData) s.owned s.counts.alive c = 0 :=
    internal_eq_zero fun d _ _ hc => hno (h1.sound.owned c d hc)
  have hcount := h1.counted.balanced.count c
  rw [howned, Store.roots, hpromise, hlisted, hqueue, hrunning, hkept, hparked] at hcount
  simpa using hcount

/-! ### Operations on handles -/

theorem newCoroutine (h1 : Inv lost s) : Inv lost s.newCoroutine where
  counted := h1.counted.newCoroutine
  sound := h1.sound.newCoroutine
  held := by
    have hdata : ∀ d, s.newCoroutine.data d = if d = s.nextData then { frame := true }
      else s.data d := fun d => Function.update_apply ..
    have hto := s.handlesTo_newCoroutine
    refine ⟨fun d hd => ?_, fun d hs hf hd => ?_, fun d hs hf => ?_⟩
    · obtain ⟨hs, hf, hzero⟩ := h1.held.unheld d hd
      have hne : d ≠ s.nextData := Nat.ne_of_lt (h1.sound.lt (.inr hf))
      rw [hdata, if_neg hne, hto, if_neg hne]
      exact ⟨hs, hf, hzero⟩
    · rw [hdata] at hs hf
      rw [hto]
      split at hs
      · next he =>
          rw [if_pos he]
          exact Nat.succ_pos _
      · next hne =>
          rw [if_neg hne] at hf ⊢
          exact h1.held.held d hs hf hd
    · rw [hdata] at hs hf
      split at hs
      · next he =>
          rw [if_pos he] at hf
          cases hf
      · next hne =>
          rw [if_neg hne] at hf
          rw [hto, if_neg hne]
          exact h1.held.gone d hs hf

theorem newHandle (h1 : Inv lost s) : Inv lost s.newHandle where
  counted := h1.counted.newHandle
  sound := h1.sound
  held := h1.held.same s.handlesTo_newHandle (fun _ _ hs => hs) fun _ hs => ⟨hs, rfl⟩

theorem moveAssign (h1 : Inv lost s) (hh : s.Has h) (ho : s.Has other) :
    Inv lost (s.moveAssign h other) := by
  have hlt := h1.counted.lt_of_has hh
  have hlt' := h1.counted.lt_of_has ho
  have htable : (s.moveAssign h other).toTable = s.toTable := by
    unfold Store.moveAssign
    split <;> rfl
  exact
    { counted := h1.counted.moveAssign hlt hlt'
      sound := htable ▸ h1.sound
      held := h1.held.same (Store.handlesTo_moveAssign hlt hlt')
        (fun d _ hs => by rw [htable]; exact hs)
        fun d hs => by rw [htable] at hs ⊢; exact ⟨hs, rfl⟩ }

/-- A copy assignment over the last handle of a process that has not been started loses the
process. -/
theorem copyAssign (h1 : Inv lost s) (hh : s.Has h) :
    Inv (lost ++ s.overwrites (.copyAssign h other)) (s.copyAssign h other) := by
  have hlt := h1.counted.lt_of_has hh
  have hlost : ∀ d, d ∈ s.overwrites (.copyAssign h other) ↔ s.pointer h = some d ∧ h ≠ other ∧
      s.pointer other ≠ some d ∧ s.counts.count d = 2 ∧ (s.data d).started = false := fun d => by
    simp [Store.overwrites, and_assoc]
  have htable : (s.copyAssign h other).toTable = s.toTable := by
    unfold Store.copyAssign Store.assign
    split
    · rfl
    · split <;> rfl
  refine ⟨h1.counted.copyAssign hlt, htable ▸ h1.sound, ?_⟩
  cases decEq h other with
  | isTrue he =>
      have hnil : s.overwrites (.copyAssign h other) = [] :=
        List.eq_nil_iff_forall_not_mem.mpr fun d hd => ((hlost d).mp hd).2.1 he
      rw [hnil, List.append_nil, Store.copyAssign, if_pos he]
      exact h1.held
  | isFalse hne =>
      have hto : ∀ d, (s.copyAssign h other).handlesTo d +
          (if s.pointer h = some d then 1 else 0) =
          s.handlesTo d + if s.pointer other = some d then 1 else 0 := fun d => by
        rw [Store.copyAssign, if_neg hne]
        exact s.handlesTo_assign _ hlt d
      refine ⟨fun d hd => ?_, fun d hs hf hd => ?_, fun d hs hf => ?_⟩
      · have hd' := hto d
        cases List.mem_append.mp hd with
        | inl hd =>
            obtain ⟨hs, hf, hzero⟩ := h1.held.unheld d hd
            have hno : s.pointer other ≠ some d := fun hp => by
              have hpos := Store.handlesTo_pos (h1.counted.lt_of_pointer hp) hp
              omega
            rw [if_neg hno] at hd'
            rw [htable]
            exact ⟨hs, hf, by omega⟩
        | inr hd =>
            obtain ⟨hp, -, hno, hcount, hs⟩ := (hlost d).mp hd
            have hsum := h1.count_of_frame hs (h1.frame_of_pointer hp hs)
            rw [if_pos hp, if_neg hno] at hd'
            rw [htable]
            exact ⟨hs, h1.frame_of_pointer hp hs, by omega⟩
      · have hd' := hto d
        rw [htable] at hs hf
        rw [List.mem_append, not_or] at hd
        have hpos := h1.held.held d hs hf hd.1
        have hsum := h1.count_of_frame hs hf
        cases Decidable.em (s.pointer h = some d) with
        | inr hp =>
            rw [if_neg hp] at hd'
            omega
        | inl hp =>
            cases Decidable.em (s.pointer other = some d) with
            | inl ho =>
                rw [if_pos hp, if_pos ho] at hd'
                omega
            | inr ho =>
                -- Another handle remains, or the process would be among those lost.
                have hcount : s.counts.count d ≠ 2 := fun hcount =>
                  hd.2 ((hlost d).mpr ⟨hp, hne, ho, hcount, hs⟩)
                rw [if_pos hp, if_neg ho] at hd'
                omega
      · have hd' := hto d
        rw [htable] at hs hf
        have hzero := h1.held.gone d hs hf
        have hno : s.pointer other ≠ some d := fun hp => by
          have hpos := Store.handlesTo_pos (h1.counted.lt_of_pointer hp) hp
          omega
        rw [if_neg hno] at hd'
        omega

theorem copyConstruct (h1 : Inv lost s) : Inv lost (s.copyConstruct other) := by
  have hhas : s.newHandle.Has s.nextHandle := by simp [Store.Has, Store.newHandle]
  have hnone : s.newHandle.pointer s.nextHandle = none := by simp [Store.pointer, Store.newHandle]
  have h2 : Inv (lost ++ s.newHandle.overwrites (.copyAssign s.nextHandle other))
      (s.copyConstruct other) := h1.newHandle.copyAssign hhas
  rw [Store.overwrites, hnone, Option.toList_none, List.filter_nil, List.append_nil] at h2
  exact h2

theorem moveConstruct (h1 : Inv lost s) (ho : s.Has other) :
    Inv lost (s.moveConstruct other) := by
  have hhas : s.newHandle.Has s.nextHandle := by simp [Store.Has, Store.newHandle]
  have hold : s.newHandle.Has other := by
    have hne : other ≠ s.nextHandle := Nat.ne_of_lt (h1.counted.lt_of_has ho)
    rw [Store.Has, Store.newHandle]
    dsimp only
    rw [Function.update_of_ne hne]
    exact ho
  exact h1.newHandle.moveAssign hhas hold

/-- `~coroutine()` destroys the frame of a process that would otherwise be lost. -/
theorem destroyHandle (h1 : Inv lost s) (hh : s.Has h) :
    ∃ s', s.destroyHandle h = .ok s' ∧ Inv lost s' := by
  have hlt := h1.counted.lt_of_has hh
  have hto := fun d => s.handlesTo_dropHandle hlt d
  unfold Store.destroyHandle
  cases hp : s.pointer h with
  | none =>
      have hsame : ∀ d, (s.setHandle h none).handlesTo d = s.handlesTo d := fun d => by
        have hd := hto d
        rw [hp] at hd
        exact hd
      have h2 := h1.counted.takeHandle hlt (p := none) rfl
      rw [hp] at h2
      exact ⟨_, rfl, h2, h1.sound, h1.held.same hsame (fun _ _ hs => hs) fun _ hs => ⟨hs, rfl⟩⟩
  | some c =>
      have hpos := Store.handlesTo_pos hlt hp
      have hself := hto c
      rw [if_pos hp] at hself
      have hother : ∀ d ≠ c, (s.setHandle h none).handlesTo d = s.handlesTo d := fun d hd => by
        have hd' := hto d
        rw [if_neg fun hpd => hd (Option.some.inj (hpd.symm.trans hp))] at hd'
        exact hd'
      cases Decidable.em (s.counts.count c = 2 ∧ (s.data c).started = false) with
      | inl hcond =>
          obtain ⟨hcount, hs⟩ := hcond
          have hf := h1.frame_of_pointer hp hs
          have hsum := h1.count_of_frame hs hf
          have hok := s.destroyFrame_of_frame .notStarted hf
          have h2 := h1.counted.destroyFrame hok
          have hp2 : ((s.setData c { s.data c with
            frame := false, destroyedBy := (s.data c).destroyedBy ++ [.notStarted] }).unref
              [c]).pointer h = some c := hp
          have h3 := h2.dropHandle hlt
          rw [hp2] at h3
          have hdata := s.setData_data c { s.data c with
            frame := false, destroyedBy := (s.data c).destroyedBy ++ [.notStarted] }
          dsimp only
          rw [show s.destroyIfNotStarted c = _ from if_pos ⟨hcount, hs⟩, hok]
          refine ⟨_, rfl, h3, h1.sound.discard hs hf rfl,
            h1.held.dropHandle hpos hother (fun d hd => ?_) (fun _ hf' => ?_) fun _ _ => ?_⟩
          · exact (hdata d).trans (if_neg hd)
          · have hself' := congrArg Data.frame ((hdata c).trans (if_pos rfl))
            cases hf'.symm.trans hself'
          · change (s.setHandle h none).handlesTo c = 0
            omega
      | inr hcond =>
          have h2 := h1.counted.dropHandle hlt
          rw [hp] at h2
          dsimp only
          rw [show s.destroyIfNotStarted c = .ok s from if_neg hcond]
          refine ⟨_, rfl, h2, h1.sound,
            h1.held.dropHandle hpos hother (fun _ _ => rfl) (fun hs hf => ?_) fun hs hf => ?_⟩
          · have hsum := h1.count_of_frame hs hf
            have hcount : s.counts.count c ≠ 2 := fun hcount => hcond ⟨hcount, hs⟩
            change 0 < (s.setHandle h none).handlesTo c
            omega
          · have hf' := h1.frame_of_pointer hp hs
            cases hf.symm.trans hf'

/-! ### Operations of processes -/

theorem bind_ (h1 : Inv lost s) (henv : s.env = true) (hp : s.pointer h = some c) :
    Inv lost (s.bind_ c) := by
  have hlt := h1.counted.lt_of_pointer hp
  have halive := h1.counted.alive_of_pointer hp
  refine ⟨h1.counted.bind_ halive fun hs => (h1.sound.idle hs).2, ?_, ?_⟩
  · unfold Store.bind_
    split
    · exact h1.sound
    · next hns =>
        have hns := Bool.eq_false_of_not_eq_true hns
        exact h1.sound.bind_ henv (h1.counted.lt_of_alive halive) hns (h1.frame_of_pointer hp hns)
          rfl
  · have hpos := Store.handlesTo_pos hlt hp
    unfold Store.bind_
    split
    · exact h1.held
    · have hdata := s.setData_data c { s.data c with started := true, parent := s.current }
      refine h1.held.same (fun _ => rfl) (fun d hzero hs => ?_) fun d hs => ?_
      · have hne : d ≠ c := fun he => by
          rw [he] at hzero
          omega
        exact (congrArg Data.started ((hdata d).trans (if_neg hne))).trans hs
      · have hne : d ≠ c := fun he => by
          have hs' := congrArg Data.started ((hdata d).trans (if_pos he))
          cases hs.symm.trans hs'
        have hold := (hdata d).trans (if_neg hne)
        exact ⟨(congrArg Data.started hold).symm.trans hs, congrArg Data.frame hold⟩

theorem step (h1 : Inv lost s) (henv : s.env = true) (hnone : s.current = none)
    (hc : c ∈ s.queue) : ∃ s', s.step c = .ok s' ∧ Inv lost s' := by
  obtain ⟨hcomp, hframe⟩ := h1.sound.of_queue hc
  have hok : s.step c = .ok ({ s with queue := s.queue.erase c, current := some c }.ref c) := by
    unfold Store.step
    rw [hcomp, hframe]
    rfl
  exact ⟨_, hok, h1.counted.step hnone hc hok, h1.sound.step henv hnone hc,
    h1.held.started rfl rfl (fun _ => rfl) fun _ _ => rfl⟩

theorem suspend (h1 : Inv lost s) (hc : s.current = some c) : Inv lost (s.suspend c) :=
  ⟨h1.counted.suspend hc, h1.sound.suspend hc,
    h1.held.started rfl rfl (fun _ => rfl) fun _ _ => rfl⟩

theorem keep (h1 : Inv lost s) (hc : s.current = some c) :
    Inv lost ({ s with kept := c :: s.kept }.ref c) :=
  ⟨h1.counted.keep hc, h1.sound.keep hc, h1.held.started rfl rfl (fun _ => rfl) fun _ _ => rfl⟩

theorem unkeep (h1 : Inv lost s) (hc : c ∈ s.kept) :
    Inv lost ({ s with kept := s.kept.erase c }.unref [c]) :=
  ⟨h1.counted.unkeep hc, h1.sound.unkeep, h1.held.started rfl rfl (fun _ => rfl) fun _ _ => rfl⟩

theorem park (h1 : Inv lost s) (hc : s.current = some c) : Inv lost (s.park c) :=
  ⟨h1.counted.park hc, h1.sound.park hc, h1.held.started rfl rfl (fun _ => rfl) fun _ _ => rfl⟩

theorem wake (h1 : Inv lost s) (hc : c ∈ s.parked) (hprop : s.Proper (.wake c)) :
    Inv lost (s.wake c) :=
  ⟨h1.counted.wake hc, h1.sound.wake hc hprop.1 hprop.2,
    h1.held.started rfl rfl (fun _ => rfl) fun _ _ => rfl⟩

theorem forget (h1 : Inv lost s) (hc : c ∈ s.parked) : Inv lost (s.forget c) :=
  ⟨h1.counted.forget hc, h1.sound.forget, h1.held.started rfl rfl (fun _ => rfl) fun _ _ => rfl⟩

theorem leave (h1 : Inv lost s) (hc : s.current = some c) : Inv lost (s.leave c) :=
  ⟨h1.counted.leave hc, h1.sound.leave, h1.held.started rfl rfl (fun _ => rfl) fun _ _ => rfl⟩

theorem await {p : CoroId} (h1 : Inv lost s) (hc : s.current = some c)
    (hp : s.pointer h = some p) : Inv lost (s.await c p) := by
  have h2 := h1.bind_ (h1.sound.env_of_current hc) hp
  have hc2 : (s.bind_ p).current = some c := by rw [Store.bind_current, hc]
  have hs2 := s.bind_started p
  have h3 := h1.counted.await hc hp fun hs => (h1.sound.idle hs).2
  unfold Store.await at h3 ⊢
  dsimp only at h3 ⊢
  cases Bool.eq_false_or_eq_true ((s.bind_ p).data p).complete with
  | inl hcomp =>
      rw [hcomp, if_pos rfl]
      exact h2
  | inr hcomp =>
      have hno : ¬ ((s.bind_ p).data p).complete = true := by rw [hcomp]; exact nofun
      rw [if_neg hno] at h3 ⊢
      have hdata := (s.bind_ p).setData_data p { (s.bind_ p).data p with
        waiters := ((s.bind_ p).data p).waiters ++ [c] }
      refine ⟨h3, h2.sound.await hc2 hs2 hcomp rfl,
        h2.held.started rfl rfl (fun d => ?_) fun d hs => ?_⟩
      · have hd := congrArg Data.started (hdata d)
        refine hd.trans ?_
        split
        · next he => rw [he]
        · rfl
      · have hne : d ≠ p := fun he => by
          rw [he, hs2] at hs
          cases hs
        exact (hdata d).trans (if_neg hne)

theorem finish (h1 : Inv lost s) (hc : s.current = some c) :
    ∃ s', s.finish c = .ok s' ∧ Inv lost s' := by
  obtain ⟨-, hframe⟩ := h1.sound.of_current hc
  have hs := h1.sound.used c (.inr (.inl hc))
  obtain ⟨s', hok, hhandles, hlast, htable⟩ := s.finish_ok hframe
  have hdata : ∀ d, s'.data d = if d = c then { s.data c with
      waiters := [], complete := true, frame := false,
      destroyedBy := (s.data c).destroyedBy ++ [.ended] } else s.data d := fun d => by
    rw [htable]
    exact Function.update_apply ..
  refine ⟨s', hok, h1.counted.finish hc (h1.sound.listed_of_current hc) hok, ?_,
    h1.held.started hhandles hlast (fun d => ?_) fun d hd => ?_⟩
  · rw [htable]
    exact h1.sound.finish hc rfl
  · rw [hdata]
    split
    · next he => rw [he]
    · rfl
  · have hne : d ≠ c := fun he => by
      rw [he, hs] at hd
      cases hd
    rw [hdata, if_neg hne]

/-! ### The environment -/

theorem reset (h1 : Inv lost s) (hnone : s.current = none) :
    ∃ s', s.reset = .ok s' ∧ Inv lost s' ∧ Inv lost { s' with env := false } := by
  obtain ⟨s', hok, hhandles, hlast, htable⟩ := Store.reset_ok h1.sound
  have hcounted := h1.counted.reset hok
  have hdata : ∀ d, s'.data d = if d ∈ s.coroutines then (s.data d).destroyed else s.data d :=
    fun d => congrFun (congrArg Table.data htable) d
  have hheld : Held lost s' := h1.held.started hhandles hlast
    (fun d => by rw [hdata]; split <;> rfl) fun d hs => by
      rw [hdata, if_neg fun hmem => ?_]
      rw [((h1.sound.listed d).mp hmem).1] at hs
      cases hs
  refine ⟨s', hok, ⟨hcounted, ?_, hheld⟩, ⟨?_, ?_, ?_⟩⟩
  · rw [htable]
    exact h1.sound.reset hnone
  · exact ⟨hcounted.balanced, hcounted.handles, hcounted.data⟩
  · rw [htable]
    exact h1.sound.reset hnone
  · exact ⟨hheld.unheld, hheld.held, hheld.gone⟩

/-! ### Runs -/

theorem init : Inv [] Store.init where
  counted :=
    { balanced :=
        { count := fun c => rfl
          alive := fun c => by simp [Store.init]
          inside := fun c hc => absurd rfl hc }
      handles := fun _ _ => rfl
      data := fun _ _ => rfl }
  sound :=
    { data := fun c hc => absurd hc (Nat.not_lt_zero c)
      new := fun _ _ => rfl
      used := fun c hc => by simp [Store.init] at hc
      owned := fun c d hc => by cases hc
      listed := fun c => by simp [Store.init]
      nodup := List.nodup_nil
      single := fun c => Nat.zero_le _
      closed := nofun }
  held := ⟨nofun, nofun, fun _ _ _ => rfl⟩

/-- Every operation succeeds, and keeps the invariant. -/
theorem apply (h1 : Inv lost s) {op : Op} (hal : s.Allowed op) (hprop : s.Proper op) :
    ∃ s', s.apply op = .ok s' ∧ Inv (lost ++ s.overwrites op) s' := by
  have hnil : ∀ {t : Store}, Inv lost t → Inv (lost ++ []) t := fun h2 => by
    rwa [List.append_nil]
  have hsome : ∀ {p : Option CoroId}, p.isSome = true → ∃ c, p = some c :=
    fun h2 => Option.isSome_iff_exists.mp h2
  cases op with
  | create => exact ⟨_, rfl, hnil h1.newCoroutine⟩
  | copyConstruct other => exact ⟨_, rfl, hnil h1.copyConstruct⟩
  | copyAssign h other => exact ⟨_, rfl, h1.copyAssign hal.1⟩
  | moveConstruct other => exact ⟨_, rfl, hnil (h1.moveConstruct hal)⟩
  | moveAssign h other => exact ⟨_, rfl, hnil (h1.moveAssign hal.1 hal.2)⟩
  | destroy h =>
      obtain ⟨s', hok, h2⟩ := h1.destroyHandle hal
      exact ⟨s', hok, hnil h2⟩
  | bind h =>
      obtain ⟨c, hp⟩ := hsome hal.2
      refine ⟨s.bind_ c, ?_, hnil (h1.bind_ hal.1 hp)⟩
      simp only [Store.apply, hp, Store.withSome]
  | step c =>
      obtain ⟨s', hok, h2⟩ := h1.step hal.1 hal.2.1 hal.2.2
      exact ⟨s', hok, hnil h2⟩
  | suspend =>
      obtain ⟨c, hc⟩ := hsome hal
      refine ⟨s.suspend c, ?_, hnil (h1.suspend hc)⟩
      simp only [Store.apply, hc, Store.withSome]
  | wait =>
      obtain ⟨c, hc⟩ := hsome hal
      refine ⟨(s.park c).leave c, ?_, hnil ((h1.park hc).leave hc)⟩
      simp only [Store.apply, hc, Store.withSome]
  | park =>
      obtain ⟨c, hc⟩ := hsome hal
      refine ⟨s.park c, ?_, hnil (h1.park hc)⟩
      simp only [Store.apply, hc, Store.withSome]
  | wake c => exact ⟨_, rfl, hnil (h1.wake hal.2 hprop)⟩
  | forget c => exact ⟨_, rfl, hnil (h1.forget hal)⟩
  | await h =>
      obtain ⟨c, hc⟩ := hsome hal.1
      obtain ⟨p, hp⟩ := hsome hal.2
      refine ⟨s.await c p, ?_, hnil (h1.await hc hp)⟩
      simp only [Store.apply, hc, hp, Store.withSome]
  | finish =>
      obtain ⟨c, hc⟩ := hsome hal
      obtain ⟨s', hok, h2⟩ := h1.finish hc
      refine ⟨s', ?_, hnil h2⟩
      simp only [Store.apply, hc, Store.withSome, hok]
  | keep =>
      obtain ⟨c, hc⟩ := hsome hal
      refine ⟨_, ?_, hnil (h1.keep hc)⟩
      simp only [Store.apply, hc, Store.withSome]
  | unkeep c => exact ⟨_, rfl, hnil (h1.unkeep hal)⟩
  | reset =>
      obtain ⟨s', hok, h2, -⟩ := h1.reset hal.2
      exact ⟨s', hok, hnil h2⟩
  | destroyEnv =>
      obtain ⟨s', hok, -, h2⟩ := h1.reset hal.2
      refine ⟨{ s' with env := false }, ?_, hnil h2⟩
      simp only [Store.apply, hok, Except.map]

end Inv

end Cxxdes.Lifetime
