-- SUMMARY: The count of a coroutine_data is the number of references to it, after every operation on handles, frames and processes.
import Cxxdes.Lifetime.Store

/-!
# Counting references

In the middle of an operation some references are in hand: they have been taken from where
they were, or counted, and not put anywhere yet. The invariant says that the counts agree
with the references that are stored and those in hand.
-/

namespace Cxxdes.Lifetime

open RefCount

namespace Store

/-- Whether handle `h` points to `c`. -/
def pointsTo (s : Store) (c : CoroId) (h : HandleId) : Nat :=
  if s.pointer h = some c then 1 else 0

/-- The handles that point to `c`. -/
def handlesTo (s : Store) (c : CoroId) : Nat :=
  ∑ h ∈ Finset.range s.nextHandle, s.pointsTo c h

/-- Whether the promise of `c` exists. -/
def promise (s : Store) (c : CoroId) : Nat := if (s.data c).frame then 1 else 0

/-- `current_coroutine_` and the token that is executed. -/
def running (s : Store) (c : CoroId) : Nat := if s.current = some c then 2 else 0

/-- The references to `c` that other `coroutine_data` do not hold. -/
def roots (s : Store) (c : CoroId) : Nat :=
  s.handlesTo c + s.promise c + s.coroutines.count c + s.queue.count c + s.running c +
    s.kept.count c + s.parked.count c

/-- All references to `c`. -/
def references (s : Store) (c : CoroId) : Nat :=
  s.roots c + internal (Finset.range s.nextData) s.owned s.counts.alive c

end Store

/-- The counts agree with the references, `inHand` included. -/
structure Counted (inHand : List CoroId) (s : Store) : Prop where
  balanced : Balanced (Finset.range s.nextData) s.owned (fun c => inHand.count c + s.roots c)
    s.counts
  handles : ∀ h, s.nextHandle ≤ h → s.handles h = none
  data : ∀ c, s.nextData ≤ c → s.data c = {}

variable {s s' : Store} {cs ds : List CoroId} {c d : CoroId} {h other : HandleId}

/-! ### Handles -/

namespace Store

theorem handlesTo_pos (hlt : h < s.nextHandle) (hp : s.pointer h = some c) :
    0 < s.handlesTo c := by
  have hle := Finset.single_le_sum (f := s.pointsTo c) (fun _ _ => Nat.zero_le _)
    (Finset.mem_range.mpr hlt)
  rw [pointsTo, if_pos hp] at hle
  exact hle

theorem handlesTo_congr (hh : s'.handles = s.handles) (hn : s'.nextHandle = s.nextHandle)
    (c : CoroId) : s'.handlesTo c = s.handlesTo c := by
  unfold handlesTo pointsTo pointer
  rw [hh, hn]

/-- One handle changes. -/
theorem handlesTo_setHandle (s : Store) (p : Option (Option CoroId)) (hlt : h < s.nextHandle)
    (c : CoroId) :
    (s.setHandle h p).handlesTo c + s.pointsTo c h =
      s.handlesTo c + (s.setHandle h p).pointsTo c h := by
  refine sum_add_of_ne (Finset.mem_range.mpr hlt) fun x hx => ?_
  rw [pointsTo, setHandle_pointer, if_neg hx]
  rfl

/-- A new handle object. -/
theorem handlesTo_new (hp : ∀ h < s.nextHandle, s'.handles h = s.handles h)
    (hn : s'.nextHandle = s.nextHandle + 1) (c : CoroId) :
    s'.handlesTo c = s.handlesTo c + s'.pointsTo c s.nextHandle := by
  unfold handlesTo
  rw [hn, Finset.sum_range_succ]
  congr 1
  exact Finset.sum_congr rfl fun h hh => by
    unfold pointsTo pointer
    rw [hp h (Finset.mem_range.mp hh)]

theorem handlesTo_newHandle (s : Store) (c : CoroId) :
    s.newHandle.handlesTo c = s.handlesTo c := by
  have hnew : s.newHandle.handles s.nextHandle = some none := Function.update_self ..
  rw [handlesTo_new (s := s) (fun h hlt => Function.update_of_ne (Nat.ne_of_lt hlt) ..) rfl]
  simp [pointsTo, pointer, hnew]

theorem handlesTo_newCoroutine (s : Store) (c : CoroId) :
    s.newCoroutine.handlesTo c = s.handlesTo c + if c = s.nextData then 1 else 0 := by
  have hnew : s.newCoroutine.pointer s.nextHandle = some s.nextData := by
    simp [pointer, newCoroutine]
  rw [handlesTo_new (s := s) (fun h hlt => Function.update_of_ne (Nat.ne_of_lt hlt) ..) rfl]
  simp only [pointsTo, hnew, Option.some.injEq, eq_comm (a := c)]

/-- A handle lets go of a process, and points to another. -/
theorem handlesTo_assign (s : Store) (p : Option CoroId) (hlt : h < s.nextHandle) (c : CoroId) :
    (s.assign h p).handlesTo c + (if s.pointer h = some c then 1 else 0) =
      s.handlesTo c + if p = some c then 1 else 0 := by
  unfold assign
  split
  · next hp => rw [hp]
  · have hto := s.handlesTo_setHandle (some p) hlt c
    simp only [pointsTo, setHandle_pointer, if_pos, Option.join_some] at hto
    have hsame : (((s.setHandle h (some none)).unref (s.pointer h).toList).setHandle h
        (some p)).handles = (s.setHandle h (some p)).handles := Function.update_idem ..
    unfold handlesTo pointsTo pointer at hto ⊢
    change (∑ x ∈ Finset.range s.nextHandle, if ((((s.setHandle h (some none)).unref
      (s.pointer h).toList).setHandle h (some p)).handles x).join = some c then 1 else 0) + _ = _
    rw [hsame]
    exact hto

theorem handlesTo_dropHandle (s : Store) (hlt : h < s.nextHandle) (c : CoroId) :
    (s.setHandle h none).handlesTo c + (if s.pointer h = some c then 1 else 0) =
      s.handlesTo c := by
  have hto := s.handlesTo_setHandle none hlt c
  simp only [pointsTo, setHandle_pointer, if_pos, Option.join_none, reduceCtorEq, if_false,
    Nat.add_zero] at hto
  exact hto

end Store

namespace Counted

theorem lt_of_pointer (h1 : Counted cs s) (hp : s.pointer h = some c) : h < s.nextHandle := by
  by_contra hle
  have hnone := h1.handles h (Nat.le_of_not_lt hle)
  rw [Store.pointer, hnone] at hp
  cases hp

theorem lt_of_has (h1 : Counted cs s) (hh : s.Has h) : h < s.nextHandle := by
  by_contra hle
  have hnone := h1.handles h (Nat.le_of_not_lt hle)
  rw [Store.Has, hnone] at hh
  cases hh

/-- What is referred to exists. -/
theorem alive (h1 : Counted cs s) (hpos : 0 < cs.count c + s.roots c) :
    s.counts.alive c = true := by
  have hcount := h1.balanced.count c
  exact (h1.balanced.alive c).mpr (by omega)

theorem lt_of_alive (h1 : Counted cs s) (ha : s.counts.alive c = true) : c < s.nextData :=
  Finset.mem_range.mp (h1.balanced.inside c ((h1.balanced.alive c).mp ha))

theorem alive_of_pointer (h1 : Counted cs s) (hp : s.pointer h = some c) :
    s.counts.alive c = true := by
  have hpos := Store.handlesTo_pos (h1.lt_of_pointer hp) hp
  apply h1.alive
  unfold Store.roots
  omega

theorem alive_of_frame (h1 : Counted cs s) (hf : (s.data c).frame = true) :
    s.counts.alive c = true := by
  apply h1.alive
  simp only [Store.roots, Store.promise, hf, if_true]
  omega

theorem alive_of_current (h1 : Counted cs s) (hc : s.current = some c) :
    s.counts.alive c = true := by
  apply h1.alive
  simp only [Store.roots, Store.running, hc, if_true]
  omega

/-! ### Moving references -/

/-- References are taken from where they are, or put somewhere. -/
theorem move (h1 : Counted cs s) (hcounts : s'.counts = s.counts)
    (hdata : s'.nextData = s.nextData) (howned : ∀ c, s'.owned c = s.owned c)
    (hroots : ∀ c, ds.count c + s'.roots c = cs.count c + s.roots c)
    (hhandles : ∀ h, s'.nextHandle ≤ h → s'.handles h = none)
    (hnew : ∀ c, s.nextData ≤ c → s'.data c = {}) : Counted ds s' where
  balanced := by
    have hb := h1.balanced.congr hroots
    rw [hcounts, hdata, show s'.owned = s.owned from funext howned]
    exact hb
  handles := hhandles
  data c hc := hnew c (hdata ▸ hc)

theorem ref (h1 : Counted cs s) (ha : s.counts.alive c = true) : Counted (c :: cs) (s.ref c) where
  balanced := by
    refine (h1.balanced.ref ha).congr fun x => ?_
    change (c :: cs).count x + s.roots x = _
    rw [List.count_cons]
    simp only [beq_iff_eq, eq_comm (a := c)]
    omega
  handles := h1.handles
  data := h1.data

theorem refAll (h1 : Counted cs s) (ds : List CoroId) (ha : ∀ d ∈ ds, s.counts.alive d = true) :
    Counted (ds ++ cs) (s.refAll ds) := by
  induction ds generalizing cs s with
  | nil => exact h1
  | cons d ds ih =>
      have h2 := ih (h1.ref (ha d (List.mem_cons_self ..))) fun x hx =>
        ha x (List.mem_cons_of_mem _ hx)
      refine ⟨h2.balanced.congr fun x => ?_, h2.handles, h2.data⟩
      rw [show (ds ++ d :: cs).count x = (d :: ds ++ cs).count x from List.perm_middle.count_eq x]
      rfl

theorem split (h1 : Counted (ds ++ cs) s) : Balanced (Finset.range s.nextData) s.owned
    (fun x => ds.count x + (cs.count x + s.roots x)) s.counts :=
  h1.balanced.congr fun x => by
    rw [List.count_append]
    omega

theorem unref (h1 : Counted (ds ++ cs) s) : Counted cs (s.unref ds) where
  balanced := by
    exact (h1.split.drop (Nat.le_refl _)).1
  handles := h1.handles
  data := h1.data

/-- The data of one process that exists changes. -/
theorem data_setData (h1 : Counted cs s) (ha : s.counts.alive c = true) (x : Data) (d : CoroId)
    (hd : s.nextData ≤ d) : (s.setData c x).data d = {} := by
  have hne : d ≠ c := Nat.ne_of_gt (Nat.lt_of_lt_of_le (h1.lt_of_alive ha) hd)
  rw [Store.setData_data, if_neg hne]
  exact h1.data d hd

/-- A process hands over the references that it owns, or takes some. -/
theorem owned {x : Data} (h1 : Counted cs s) (ha : s.counts.alive c = true)
    (hframe : x.frame = (s.data c).frame)
    (hcount : ∀ d, ds.count d + x.owned.count d = cs.count d + (s.owned c).count d) :
    Counted ds (s.setData c x) where
  balanced := by
    have hroots : ∀ d, (s.setData c x).roots d = s.roots d := fun d => by
      have hp : (s.setData c x).promise d = s.promise d := by
        unfold Store.promise
        rw [Store.setData_data]
        split
        · next hd => rw [hd, hframe]
        · rfl
      unfold Store.roots
      rw [hp]
      rfl
    refine h1.balanced.owned ha (fun d hd => ?_) fun d => ?_
    · rw [Store.setData_owned, if_neg hd]
    · have hd := hcount d
      rw [hroots, Store.setData_owned, if_pos rfl]
      omega
  handles := h1.handles
  data := h1.data_setData ha x

/-! ### Frames -/

/-- The reference of the promise is taken. -/
theorem takeFrame {x : Data} (h1 : Counted cs s) (hf : (s.data c).frame = true)
    (hx : x.frame = false) (howned : x.owned = s.owned c) : Counted (c :: cs) (s.setData c x) := by
  have ha := h1.alive_of_frame hf
  refine h1.move rfl rfl (fun d => ?_) (fun d => ?_) h1.handles (h1.data_setData ha x)
  · rw [Store.setData_owned]
    split
    · next hd => rw [hd, howned]
    · rfl
  · have hp : (s.setData c x).promise d + (if d = c then 1 else 0) = s.promise d := by
      unfold Store.promise
      rw [Store.setData_data]
      by_cases hd : d = c
      · subst hd; simp [hx, hf]
      · simp [hd]
    have hcount : (c :: cs).count d = cs.count d + if d = c then 1 else 0 := by
      rw [List.count_cons]
      simp only [beq_iff_eq, eq_comm (a := c)]
    unfold Store.roots
    rw [hcount, ← hp]
    change _ + (s.handlesTo d + _ + s.coroutines.count d + s.queue.count d + s.running d +
      s.kept.count d + s.parked.count d) = _
    omega

theorem destroyFrame {cause : Cause} (h1 : Counted cs s) (h2 : s.destroyFrame c cause = .ok s') :
    Counted cs s' := by
  obtain ⟨hf, rfl⟩ := Store.destroyFrame_ok h2
  have h3 : Counted ([c] ++ cs) (s.setData c { s.data c with
      frame := false, destroyedBy := (s.data c).destroyedBy ++ [cause] }) :=
    h1.takeFrame hf rfl rfl
  exact h3.unref

/-! ### Operations on handles -/

theorem setHandle (h1 : Counted cs s) (hlt : h < s.nextHandle) (p : Option (Option CoroId))
    (hcs : ∀ x, ds.count x + (s.setHandle h p).pointsTo x h = cs.count x + s.pointsTo x h) :
    Counted ds (s.setHandle h p) := by
  refine h1.move rfl rfl (fun _ => rfl) (fun x => ?_) (fun x hx => ?_) h1.data
  · have hh := s.handlesTo_setHandle p hlt x
    have hx := hcs x
    unfold Store.roots
    change _ + (_ + s.promise x + s.coroutines.count x + s.queue.count x + s.running x +
      s.kept.count x + s.parked.count x) = _
    omega
  · have hne : x ≠ h := Nat.ne_of_gt (Nat.lt_of_lt_of_le hlt hx)
    rw [Store.setHandle_handles, if_neg hne]
    exact h1.handles x hx

theorem count_toList (p : Option CoroId) (x : CoroId) :
    p.toList.count x = if p = some x then 1 else 0 := by
  cases p with
  | none => rfl
  | some c => simp [List.count_singleton]

/-- The reference of a handle is taken. -/
theorem takeHandle (h1 : Counted cs s) (hlt : h < s.nextHandle) {p : Option (Option CoroId)}
    (hp : p.join = none) : Counted ((s.pointer h).toList ++ cs) (s.setHandle h p) := by
  refine h1.setHandle hlt p fun x => ?_
  have hnone : (s.setHandle h p).pointsTo x h = 0 := by
    unfold Store.pointsTo
    rw [Store.setHandle_pointer, if_pos rfl, hp]
    rfl
  rw [hnone, List.count_append, count_toList]
  unfold Store.pointsTo
  omega

/-- A reference is given to a handle that has none. -/
theorem giveHandle {p : Option CoroId} (h1 : Counted (p.toList ++ cs) s) (hlt : h < s.nextHandle)
    (hnone : s.pointer h = none) : Counted cs (s.setHandle h (some p)) := by
  refine h1.setHandle hlt _ fun x => ?_
  have hself : (s.setHandle h (some p)).pointsTo x h = if p = some x then 1 else 0 := by
    unfold Store.pointsTo
    rw [Store.setHandle_pointer, if_pos rfl]
    rfl
  have hzero : s.pointsTo x h = 0 := by
    unfold Store.pointsTo
    rw [hnone]
    rfl
  rw [hself, hzero, List.count_append, count_toList]
  omega

theorem newHandle (h1 : Counted cs s) : Counted cs s.newHandle := by
  refine h1.move rfl rfl (fun _ => rfl) (fun x => ?_) (fun x hx => ?_) h1.data
  · unfold Store.roots
    rw [s.handlesTo_newHandle]
    rfl
  · have hle : s.nextHandle + 1 ≤ x := hx
    have hne : x ≠ s.nextHandle := Nat.ne_of_gt hle
    have hold : s.newHandle.handles x = s.handles x := Function.update_of_ne hne ..
    rw [hold]
    exact h1.handles x (Nat.le_of_succ_le hle)


theorem newCoroutine (h1 : Counted cs s) : Counted cs s.newCoroutine where
  balanced := by
    have hdead : s.counts.alive s.nextData = false := by
      cases hal : s.counts.alive s.nextData with
      | false => rfl
      | true => exact absurd (h1.lt_of_alive hal) (Nat.lt_irrefl _)
    have hold : s.data s.nextData = {} := h1.data s.nextData (Nat.le_refl _)
    have howned : s.newCoroutine.owned = s.owned := by
      funext x
      change Data.owned (Function.update s.data s.nextData { frame := true } x) = (s.data x).owned
      rw [Function.update_apply]
      split
      · next hx => rw [hx, hold]; rfl
      · rfl
    -- One reference from the promise, and one from the handle.
    have hb := (h1.balanced.mono (Finset.range_subset_range.mpr (Nat.le_succ _))).create
      (Finset.self_mem_range_succ _) hdead (by rw [Store.owned, hold]; rfl)
    have hb := hb.ref (a := s.nextData) (by rw [Counts.create_alive, if_pos rfl])
    rw [howned]
    refine hb.congr fun x => ?_
    have hpr : s.newCoroutine.promise x = s.promise x + if x = s.nextData then 1 else 0 := by
      unfold Store.promise
      change (if (Function.update s.data s.nextData { frame := true } x).frame then 1 else 0) = _
      rw [Function.update_apply]
      split
      · next hx => rw [hx, hold]; rfl
      · rfl
    unfold Store.roots
    rw [s.handlesTo_newCoroutine, hpr]
    change _ + (_ + s.coroutines.count x + s.queue.count x + s.running x + s.kept.count x +
        s.parked.count x) = _
    omega
  handles x hx := by
    have hle : s.nextHandle + 1 ≤ x := hx
    have hne : x ≠ s.nextHandle := Nat.ne_of_gt hle
    have hold : s.newCoroutine.handles x = s.handles x := Function.update_of_ne hne ..
    rw [hold]
    exact h1.handles x (Nat.le_of_succ_le hle)
  data x hx := by
    have hle : s.nextData + 1 ≤ x := hx
    have hne : x ≠ s.nextData := Nat.ne_of_gt hle
    have hold : s.newCoroutine.data x = s.data x := Function.update_of_ne hne ..
    rw [hold]
    exact h1.data x (Nat.le_of_succ_le hle)

/-- The process that is assigned stays alive, since another handle points to it. -/
theorem assign (h1 : Counted cs s) (hlt : h < s.nextHandle) (hne : other ≠ h) :
    Counted cs (s.assign h (s.pointer other)) := by
  unfold Store.assign
  split
  · exact h1
  · have h2 := (h1.takeHandle hlt (p := some none) rfl).unref
    have hself : ((s.setHandle h (some none)).unref (s.pointer h).toList).pointer h = none := by
      change (s.setHandle h (some none)).pointer h = none
      rw [Store.setHandle_pointer, if_pos rfl]
      rfl
    have hother : ((s.setHandle h (some none)).unref (s.pointer h).toList).pointer other =
        s.pointer other := by
      change (s.setHandle h (some none)).pointer other = s.pointer other
      rw [Store.setHandle_pointer, if_neg hne]
    have h3 := h2.refAll (s.pointer other).toList fun c hc =>
      h2.alive_of_pointer (hother.trans (Option.mem_toList.mp hc))
    exact h3.giveHandle hlt hself

theorem copyAssign (h1 : Counted cs s) (hlt : h < s.nextHandle) :
    Counted cs (s.copyAssign h other) := by
  unfold Store.copyAssign
  split
  · exact h1
  · next hne => exact h1.assign hlt (Ne.symm hne)

end Counted

/-- `std::swap` of two handles. -/
theorem Store.handlesTo_moveAssign (hlt : h < s.nextHandle) (hlt' : other < s.nextHandle)
    (c : CoroId) : (s.moveAssign h other).handlesTo c = s.handlesTo c := by
  unfold Store.moveAssign
  split
  · rfl
  · next hne =>
      have h2 := s.handlesTo_setHandle (some (s.pointer other)) hlt c
      have h3 := (s.setHandle h (some (s.pointer other))).handlesTo_setHandle
        (some (s.pointer h)) hlt' c
      simp only [Store.pointsTo, Store.setHandle_pointer, if_pos, if_neg (Ne.symm hne),
        Option.join_some] at h2 h3
      omega

namespace Counted

theorem moveAssign (h1 : Counted cs s) (hlt : h < s.nextHandle) (hlt' : other < s.nextHandle) :
    Counted cs (s.moveAssign h other) := by
  have hto := Store.handlesTo_moveAssign hlt hlt'
  unfold Store.moveAssign at hto ⊢
  split
  · exact h1
  · next hne =>
      rw [if_neg hne] at hto
      refine h1.move rfl rfl (fun _ => rfl) (fun x => ?_) (fun x hx => ?_) h1.data
      · unfold Store.roots
        rw [hto]
        rfl
      · have hx1 : x ≠ h := Nat.ne_of_gt (Nat.lt_of_lt_of_le hlt hx)
        have hx2 : x ≠ other := Nat.ne_of_gt (Nat.lt_of_lt_of_le hlt' hx)
        rw [Store.setHandle_handles, if_neg hx2, Store.setHandle_handles, if_neg hx1]
        exact h1.handles x hx

/-- A handle goes, with its reference. -/
theorem dropHandle (h1 : Counted cs s) (hlt : h < s.nextHandle) :
    Counted cs ((s.setHandle h none).unref (s.pointer h).toList) :=
  (h1.takeHandle hlt (p := none) rfl).unref

end Counted

/-! ### Operations of processes and of the environment -/

namespace Counted

/-- Neither the data of any process nor any handle changes. -/
theorem moveTokens (h1 : Counted cs s) (hcounts : s'.counts = s.counts)
    (hdata : s'.data = s.data) (hnext : s'.nextData = s.nextData)
    (hhandles : s'.handles = s.handles) (hlast : s'.nextHandle = s.nextHandle)
    (hroots : ∀ d, ds.count d + (s'.coroutines.count d + s'.queue.count d + s'.running d +
      s'.kept.count d + s'.parked.count d) =
      cs.count d + (s.coroutines.count d + s.queue.count d + s.running d +
        s.kept.count d + s.parked.count d)) : Counted ds s' := by
  refine h1.move hcounts hnext (fun d => ?_) (fun d => ?_) ?_ ?_
  · rw [Store.owned, hdata, Store.owned]
  · have hd := hroots d
    have hto := Store.handlesTo_congr hhandles hlast d
    have hpr : s'.promise d = s.promise d := by rw [Store.promise, hdata, Store.promise]
    unfold Store.roots
    rw [hto, hpr]
    omega
  · rw [hhandles, hlast]
    exact h1.handles
  · rw [hdata]
    exact h1.data

theorem bind_ (h1 : Counted cs s) (ha : s.counts.alive c = true)
    (hfresh : (s.data c).started = false → s.owned c = []) : Counted cs (s.bind_ c) := by
  unfold Store.bind_
  split
  · exact h1
  · next hns =>
      have hns : (s.data c).started = false := Bool.eq_false_of_not_eq_true hns
      have hown := hfresh hns
      have h2 := h1.refAll (s.current.toList ++ [c, c]) fun d hd => by
        cases List.mem_append.mp hd with
        | inl hd => exact h1.alive_of_current (Option.mem_toList.mp hd)
        | inr hd =>
            have hdc : d = c := by simpa using hd
            rw [hdc]
            exact ha
      have h3 : Counted ([c, c] ++ cs) ((s.refAll (s.current.toList ++ [c, c])).setData c
          { s.data c with started := true, parent := s.current }) := by
        have ha' : (s.refAll (s.current.toList ++ [c, c])).counts.alive c = true := h2.alive (by
          have hpos : 0 < (s.current.toList ++ [c, c] ++ cs).count c :=
            List.count_pos_iff.mpr (by simp)
          omega)
        refine h2.owned ha' rfl fun d => ?_
        have hparent : (s.data c).waiters = [] := (List.append_eq_nil_iff.mp hown).2
        change _ + (s.current.toList ++ (s.data c).waiters).count d = _ + (s.owned c).count d
        rw [hparent, hown]
        simp only [List.count_append, List.count_nil]
        omega
      refine h3.moveTokens rfl rfl rfl rfl rfl fun d => ?_
      change _ + ((c :: s.coroutines).count d + (s.queue ++ [c]).count d + s.running d +
          s.kept.count d + s.parked.count d) =
        _ + (s.coroutines.count d + s.queue.count d + s.running d +
          s.kept.count d + s.parked.count d)
      simp only [List.count_append, List.count_cons, List.count_nil]
      omega

theorem count_cons (c : CoroId) (cs : List CoroId) (x : CoroId) :
    (c :: cs).count x = cs.count x + if some c = some x then 1 else 0 := by
  rw [List.count_cons]
  simp only [beq_iff_eq, Option.some.injEq]

theorem count_erase_add {l : List CoroId} (hc : c ∈ l) (x : CoroId) :
    (l.erase c).count x + (if some c = some x then 1 else 0) = l.count x := by
  rw [← (List.perm_cons_erase hc).symm.count_eq x, count_cons]

theorem running_eq (s : Store) (x : CoroId) :
    s.running x = 2 * if s.current = some x then 1 else 0 := by
  unfold Store.running
  split <;> rfl

theorem step (h1 : Counted cs s) (hnone : s.current = none) (hc : c ∈ s.queue)
    (h2 : s.step c = .ok s') : Counted cs s' := by
  have ha : s.counts.alive c = true := h1.alive (by
    have hpos := List.count_pos_iff.mpr hc
    unfold Store.roots
    omega)
  unfold Store.step at h2
  split at h2
  · cases h2
  · split at h2
    · cases h2
    · cases h2
      refine (h1.ref ha).moveTokens rfl rfl rfl rfl rfl fun d => ?_
      have herase := count_erase_add hc d
      have hidle : (s.ref c).running d = 0 := if_neg (by rw [Store.ref, hnone]; exact nofun)
      rw [count_cons, running_eq, hidle]
      change _ + (s.coroutines.count d + (s.queue.erase c).count d +
          2 * (if some c = some d then 1 else 0) + s.kept.count d + s.parked.count d) =
        _ + (s.coroutines.count d + s.queue.count d + 0 + s.kept.count d + s.parked.count d)
      omega

theorem leave (h1 : Counted cs s) (hc : s.current = some c) : Counted cs (s.leave c) := by
  have h2 : Counted ([c, c] ++ cs) { s with current := none } := by
    refine h1.moveTokens rfl rfl rfl rfl rfl fun d => ?_
    have hidle : Store.running { s with current := none } d = 0 := if_neg nofun
    rw [running_eq s, hc, hidle]
    simp only [List.cons_append, List.nil_append, count_cons]
    omega
  exact h2.unref

theorem suspend (h1 : Counted cs s) (hc : s.current = some c) : Counted cs (s.suspend c) := by
  refine leave ?_ hc
  refine (h1.ref (h1.alive_of_current hc)).moveTokens rfl rfl rfl rfl rfl fun d => ?_
  change _ + (s.coroutines.count d + (s.queue ++ [c]).count d + s.running d +
      s.kept.count d + s.parked.count d) =
    _ + (s.coroutines.count d + s.queue.count d + s.running d + s.kept.count d + s.parked.count d)
  simp only [List.count_append, count_cons, List.count_nil]
  omega

theorem keep (h1 : Counted cs s) (hc : s.current = some c) :
    Counted cs ({ s with kept := c :: s.kept }.ref c) := by
  refine (h1.ref (h1.alive_of_current hc)).moveTokens rfl rfl rfl rfl rfl fun d => ?_
  change _ + (s.coroutines.count d + s.queue.count d + s.running d + (c :: s.kept).count d +
      s.parked.count d) =
    _ + (s.coroutines.count d + s.queue.count d + s.running d + s.kept.count d + s.parked.count d)
  simp only [count_cons]
  omega

theorem unkeep (h1 : Counted cs s) (hc : c ∈ s.kept) :
    Counted cs ({ s with kept := s.kept.erase c }.unref [c]) := by
  have h2 : Counted ([c] ++ cs) { s with kept := s.kept.erase c } := by
    refine h1.moveTokens rfl rfl rfl rfl rfl fun d => ?_
    have herase := count_erase_add hc d
    change _ + (s.coroutines.count d + s.queue.count d + s.running d + (s.kept.erase c).count d +
      s.parked.count d) =
      _ + (s.coroutines.count d + s.queue.count d + s.running d + s.kept.count d + s.parked.count d)
    simp only [List.cons_append, List.nil_append, count_cons]
    omega
  exact h2.unref

theorem park (h1 : Counted cs s) (hc : s.current = some c) : Counted cs (s.park c) := by
  refine (h1.ref (h1.alive_of_current hc)).moveTokens rfl rfl rfl rfl rfl fun d => ?_
  change _ + (s.coroutines.count d + s.queue.count d + s.running d + s.kept.count d +
    (c :: s.parked).count d) = _ + (s.coroutines.count d + s.queue.count d + s.running d +
    s.kept.count d + s.parked.count d)
  simp only [count_cons]
  omega

/-- A token goes from an event or a handler to the queue. -/
theorem wake (h1 : Counted cs s) (hc : c ∈ s.parked) : Counted cs (s.wake c) := by
  refine h1.moveTokens rfl rfl rfl rfl rfl fun d => ?_
  have herase := count_erase_add hc d
  change _ + (s.coroutines.count d + (s.queue ++ [c]).count d + s.running d + s.kept.count d +
    (s.parked.erase c).count d) = _ + (s.coroutines.count d + s.queue.count d + s.running d +
    s.kept.count d + s.parked.count d)
  simp only [List.count_append, count_cons, List.count_nil]
  omega

theorem forget (h1 : Counted cs s) (hc : c ∈ s.parked) : Counted cs (s.forget c) := by
  have h2 : Counted ([c] ++ cs) { s with parked := s.parked.erase c } := by
    refine h1.moveTokens rfl rfl rfl rfl rfl fun d => ?_
    have herase := count_erase_add hc d
    change _ + (s.coroutines.count d + s.queue.count d + s.running d + s.kept.count d +
      (s.parked.erase c).count d) = _ + (s.coroutines.count d + s.queue.count d + s.running d +
      s.kept.count d + s.parked.count d)
    simp only [List.cons_append, List.nil_append, count_cons]
    omega
  exact h2.unref

theorem await {p : CoroId} (h1 : Counted cs s) (hc : s.current = some c)
    (hp : s.pointer h = some p) (hfresh : (s.data p).started = false → s.owned p = []) :
    Counted cs (s.await c p) := by
  have h2 := h1.bind_ (h1.alive_of_pointer hp) hfresh
  have hc2 : (s.bind_ p).current = some c := by rw [Store.bind_current, hc]
  have hp2 : (s.bind_ p).pointer h = some p := by rw [Store.bind_pointer, hp]
  unfold Store.await
  simp only
  split
  · exact h2
  · refine leave ?_ hc2
    have h3 := h2.ref (h2.alive_of_current hc2)
    refine h3.owned (h3.alive_of_pointer hp2) rfl fun d => ?_
    change _ + (((s.bind_ p).data p).parent.toList ++
        (((s.bind_ p).data p).waiters ++ [c])).count d =
      _ + (((s.bind_ p).data p).parent.toList ++ ((s.bind_ p).data p).waiters).count d
    simp only [List.count_append, count_cons, List.count_nil]
    omega

theorem finish (h1 : Counted cs s) (hc : s.current = some c) (hl : c ∈ s.coroutines)
    (h2 : s.finish c = .ok s') : Counted cs s' := by
  have h3 : Counted ((s.data c).waiters ++ cs)
      (s.setData c { s.data c with waiters := [], complete := true }) := by
    refine owned h1 (h1.alive_of_current hc) rfl fun d => ?_
    change _ + ((s.data c).parent.toList ++ []).count d =
      _ + ((s.data c).parent.toList ++ (s.data c).waiters).count d
    simp only [List.count_append, List.count_nil]
    omega
  -- The tokens go from the process to the queue, and the process from `coroutines_`.
  have h4 : Counted ([c] ++ cs) { s.setData c { s.data c with waiters := [], complete := true } with
      queue := s.queue ++ (s.data c).waiters, coroutines := s.coroutines.erase c } := by
    refine h3.moveTokens rfl rfl rfl rfl rfl fun d => ?_
    have herase := count_erase_add hl d
    change _ + ((s.coroutines.erase c).count d + (s.queue ++ (s.data c).waiters).count d +
        s.running d + s.kept.count d + s.parked.count d) =
      _ + (s.coroutines.count d + s.queue.count d + s.running d +
        s.kept.count d + s.parked.count d)
    simp only [List.count_append, List.cons_append, List.nil_append, count_cons]
    omega
  unfold Store.finish at h2
  simp only at h2
  obtain ⟨t, ht, rfl⟩ := Store.ok_of_map h2
  exact (h4.unref.destroyFrame ht).leave ((Store.destroyFrame_ok ht).2 ▸ hc)

theorem destroy (h1 : Counted cs s) (hf : (s.data c).frame = true) (h2 : s.destroy c = .ok s') :
    Counted cs s' := by
  have h3 : Counted cs (s.setData c { s.data c with complete := true }) :=
    owned h1 (h1.alive_of_frame hf) rfl fun _ => rfl
  exact h3.destroyFrame h2

theorem destroyAll {l : List CoroId} (h1 : Counted cs s) (h2 : Store.destroyAll l s = .ok s') :
    Counted cs s' := by
  induction l generalizing s with
  | nil =>
      cases h2
      exact h1
  | cons c l ih =>
      unfold Store.destroyAll at h2
      split at h2
      · exact ih h1 h2
      · split at h2
        · next hd => exact ih (h1.destroy (Store.destroy_ok hd).1 hd) h2
        · cases h2

theorem reset (h1 : Counted cs s) (h2 : s.reset = .ok s') : Counted cs s' := by
  unfold Store.reset at h2
  obtain ⟨t, ht, rfl⟩ := Store.ok_of_map h2
  have h3 : Counted (s.coroutines ++ cs) { s with coroutines := [] } := by
    refine h1.moveTokens rfl rfl rfl rfl rfl fun d => ?_
    change _ + (0 + s.queue.count d + s.running d + s.kept.count d + s.parked.count d) = _
    rw [List.count_append]
    omega
  have h4 := h3.destroyAll ht
  have h5 : Counted (t.queue ++ (s.coroutines ++ cs)) { t with queue := [] } := by
    refine h4.moveTokens rfl rfl rfl rfl rfl fun d => ?_
    change _ + (t.coroutines.count d + 0 + t.running d + t.kept.count d + t.parked.count d) = _
    rw [List.count_append]
    omega
  exact h5.unref.unref

end Counted

end Cxxdes.Lifetime
