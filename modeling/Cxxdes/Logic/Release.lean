-- SUMMARY: Releasing references one by one, with the failure of a count that is zero already, and which objects it deletes.
import Cxxdes.Logic.RefCount

/-!
# Releases

`release` drops references like `drop` does, but fails where a count is zero already, and lists
the objects it deletes. With exact counts it never fails, and deletes the objects that are
`Doomed`: those to which all other references come from doomed objects.

An object that has just been created may still have the count zero. `lift u` counts such
an object as if there were one reference to it, so that it is not taken for a deleted one.
-/

namespace RefCount

variable {α : Type*} [DecidableEq α]

namespace Counts

/-- Drops the references `ds`, and those of the objects that are deleted on the way. -/
def release (owns : α → List α) : Nat → List α → Counts α → Option (Counts α × List α)
  | _, [], c => some (c, [])
  | 0, _ :: _, _ => none
  | fuel + 1, a :: ds, c =>
    if c.count a = 0 then none
    else if c.count a = 1 then
      (release owns fuel (owns a ++ ds) (c.delete a)).map fun r => (r.1, a :: r.2)
    else release owns fuel ds (c.decr a)

/-- The counts with `u` more references. -/
def lift (u : α → Nat) (c : Counts α) : Counts α := { c with count := fun a => c.count a + u a }

/-- One for each object that is alive without a reference to it. -/
def unused (c : Counts α) (a : α) : Nat := if c.alive a = true ∧ c.count a = 0 then 1 else 0

variable {u : α → Nat} {c : Counts α} {a : α}

omit [DecidableEq α] in
theorem count_of_unused (h : c.unused a ≠ 0) : c.count a = 0 := by
  unfold unused at h
  split at h
  · next hc => exact hc.2
  · exact absurd rfl h

theorem lift_decr (ha : c.count a ≠ 0) : (c.decr a).lift u = (c.lift u).decr a := by
  unfold lift decr
  congr 1
  funext x
  simp only [Function.update_apply]
  split
  · next hx =>
      subst hx
      omega
  · rfl

theorem lift_delete (ha : u a = 0) : (c.delete a).lift u = (c.lift u).delete a := by
  unfold lift delete
  congr 1
  funext x
  simp only [Function.update_apply]
  split
  · next hx => rw [hx, ha]
  · rfl

end Counts

/-- An object with references to it, all of them from objects that are doomed as well: those
from `roots` and those of other objects are not taken away. -/
inductive Doomed (owns : α → List α) (roots : α → Nat) (c : Counts α) : α → Prop where
  | intro (a : α) (hcount : c.count a ≠ 0) (hroots : roots a = 0)
      (howners : ∀ b, c.alive b = true → a ∈ owns b → Doomed owns roots c b) :
      Doomed owns roots c a

variable {dom : Finset α} {owns owns' : α → List α} {roots u : α → Nat} {c r r' : Counts α}
  {ds gone gone' : List α} {fuel fuel' : Nat} {a b x : α}

/-- What is deleted is not alive any more, and everything else stays as it is. -/
theorem release_alive (h : c.release owns fuel ds = some (r, gone)) :
    ∀ x, r.alive x = (c.alive x && !decide (x ∈ gone)) := by
  induction fuel generalizing ds c gone with
  | zero =>
      cases ds with
      | nil => cases h; simp
      | cons a ds => cases h
  | succ fuel ih =>
      cases ds with
      | nil => cases h; simp
      | cons a ds =>
          simp only [Counts.release] at h
          split at h
          · cases h
          · split at h
            · obtain ⟨⟨r1, gone1⟩, h1, heq⟩ := Option.map_eq_some_iff.mp h
              cases heq
              intro x
              rw [ih h1 x, Counts.delete_alive]
              by_cases hx : x = a <;> simp [hx]
            · exact fun x => ih h x

/-- The release does not depend on what the objects own that it does not delete. -/
theorem release_congr (h : c.release owns fuel ds = some (r, gone))
    (howns : ∀ x ∈ gone, owns' x = owns x) : c.release owns' fuel ds = some (r, gone) := by
  induction fuel generalizing ds c gone with
  | zero =>
      cases ds with
      | nil => exact h
      | cons a ds => cases h
  | succ fuel ih =>
      cases ds with
      | nil => exact h
      | cons a ds =>
          simp only [Counts.release] at h ⊢
          split at h
          · cases h
          · next h0 =>
              rw [if_neg h0]
              split at h
              · next h1 =>
                  obtain ⟨⟨r1, gone1⟩, hr1, heq⟩ := Option.map_eq_some_iff.mp h
                  cases heq
                  rw [if_pos h1, howns a (List.mem_cons_self ..),
                    ih hr1 fun x hx => howns x (List.mem_cons_of_mem _ hx)]
                  rfl
              · next h1 =>
                  rw [if_neg h1]
                  exact ih h howns

/-- Two releases that differ in what `b` owns both delete `b`, or neither does. -/
theorem release_mem (h : c.release owns fuel ds = some (r, gone))
    (h' : c.release owns' fuel ds = some (r', gone')) (howns : ∀ x ≠ b, owns' x = owns x)
    (hb : b ∈ gone) : b ∈ gone' := by
  induction fuel generalizing ds c gone gone' with
  | zero =>
      cases ds with
      | nil => cases h; cases hb
      | cons a ds => cases h
  | succ fuel ih =>
      cases ds with
      | nil => cases h; cases hb
      | cons a ds =>
          simp only [Counts.release] at h h'
          split at h
          · cases h
          · next h0 =>
              rw [if_neg h0] at h'
              split at h
              · next h1 =>
                  rw [if_pos h1] at h'
                  obtain ⟨⟨r1, gone1⟩, hr1, heq⟩ := Option.map_eq_some_iff.mp h
                  obtain ⟨⟨r1', gone1'⟩, hr1', heq'⟩ := Option.map_eq_some_iff.mp h'
                  cases heq
                  cases heq'
                  cases decEq b a with
                  | isTrue hba => rw [hba]; exact List.mem_cons_self ..
                  | isFalse hba =>
                      rw [howns a (Ne.symm hba)] at hr1'
                      have hb1 := (List.mem_cons.mp hb).resolve_left hba
                      exact List.mem_cons_of_mem _ (ih hr1 hr1' hb1)
              · next h1 =>
                  rw [if_neg h1] at h'
                  exact ih h h' hb

/-- One object's references are among all. -/
theorem count_le_internal {alive : α → Bool} (hb : b ∈ dom) (hal : alive b = true) :
    (owns b).count a ≤ internal dom owns alive a := by
  have hle := Finset.single_le_sum (f := fun x => if alive x then (owns x).count a else 0)
    (fun _ _ => Nat.zero_le _) hb
  simp only [hal, if_true] at hle
  exact hle

namespace Balanced

/-- A reference that is to be dropped counts. -/
theorem count_ne_zero
    (h : Balanced dom owns (fun x => (a :: ds).count x + (roots x + u x)) (c.lift u)) :
    c.count a ≠ 0 := by
  have hcount := h.count a
  rw [List.count_cons_self] at hcount
  change c.count a + u a = _ at hcount
  omega

/-- With exact counts a release succeeds, and leaves exact counts. The objects it deletes have
every property `D` that an object has if all other references to it come from objects with `D`. -/
theorem release (h : Balanced dom owns (fun x => ds.count x + (roots x + u x)) (c.lift u))
    (hu : ∀ a, u a ≠ 0 → c.count a = 0) (hfuel : ∑ x ∈ dom, (c.lift u).count x ≤ fuel) :
    ∃ r gone, c.release owns fuel ds = some (r, gone) ∧
      Balanced dom owns (fun x => roots x + u x) (r.lift u) ∧
      (∀ a, u a ≠ 0 → r.count a = 0) ∧ gone.Nodup ∧ (∀ x ∈ gone, c.alive x = true) ∧
      ∀ D : α → Prop, (∀ a, c.count a ≠ 0 → roots a + u a = 0 →
        (∀ b, c.alive b = true → a ∈ owns b → D b) → D a) → ∀ x ∈ gone, D x := by
  induction fuel generalizing ds c with
  | zero =>
      cases ds with
      | nil =>
          refine ⟨c, [], rfl, h.congr fun a => by simp, hu, List.nodup_nil, ?_, ?_⟩ <;> simp
      | cons a ds =>
          have hne : (c.lift u).count a ≠ 0 := Nat.ne_of_gt
            (Nat.lt_of_lt_of_le (Nat.pos_of_ne_zero h.count_ne_zero) (Nat.le_add_right _ _))
          have hle := Finset.single_le_sum (f := (c.lift u).count) (fun _ _ => Nat.zero_le _)
            (h.inside a hne)
          omega
  | succ fuel ih =>
      cases ds with
      | nil =>
          refine ⟨c, [], rfl, h.congr fun a => by simp, hu, List.nodup_nil, ?_, ?_⟩ <;> simp
      | cons a ds =>
          have h0 : c.count a ≠ 0 := h.count_ne_zero
          have hua : u a = 0 := by
            by_contra hne
            exact h0 (hu a hne)
          have hlift : (c.lift u).count a = c.count a := by
            change c.count a + u a = _
            omega
          have hne : (c.lift u).count a ≠ 0 := by rwa [hlift]
          simp only [Counts.release, if_neg h0]
          cases Nat.decEq (c.count a) 1 with
          | isTrue h1 =>
              -- the last reference: the object is deleted with all it owns
              have hb := h.delete (hlift.trans h1)
              have hlt := h.sum_lt ((c.lift u).delete a) hne
                (by rw [Counts.delete_count, if_pos rfl, hlift, h1])
                fun x hx => by rw [Counts.delete_count, if_neg hx]
              rw [← Counts.lift_delete hua] at hb hlt
              have hu' : ∀ x, u x ≠ 0 → (c.delete a).count x = 0 := by
                intro x hx
                rw [Counts.delete_count, hu x hx, ite_self]
              obtain ⟨r, gone, hr, hbal, hur, hnd, hal, hD⟩ := ih hb hu' (by omega)
              have hal' : ∀ x ∈ gone, x ≠ a ∧ c.alive x = true := by
                intro x hx
                have h2 := hal x hx
                rw [Counts.delete_alive] at h2
                cases decEq x a with
                | isTrue hxa => rw [if_pos hxa] at h2; cases h2
                | isFalse hxa => rw [if_neg hxa] at h2; exact ⟨hxa, h2⟩
              have haal : c.alive a = true := (h.alive a).mpr hne
              refine ⟨r, a :: gone, by rw [if_pos h1, hr]; rfl, hbal, hur,
                List.nodup_cons.mpr ⟨fun ha => (hal' a ha).1 rfl, hnd⟩, ?_, fun D hclosed => ?_⟩
              · intro x hx
                cases List.mem_cons.mp hx with
                | inl hxa => rw [hxa]; exact haal
                | inr hx => exact (hal' x hx).2
              · have hcount := h.count a
                rw [hlift, h1, List.count_cons_self] at hcount
                have hin : internal dom owns c.alive a = 0 := by
                  change 1 = _ + internal dom owns c.alive a at hcount
                  omega
                have hDa : D a := by
                  refine hclosed a h0 (by omega) fun b hbal' hab => ?_
                  have hle : (owns b).count a ≤ internal dom owns c.alive a :=
                    count_le_internal (h.inside b ((h.alive b).mp hbal')) hbal'
                  have hpos := List.count_pos_iff.mpr hab
                  omega
                have hrest := hD D fun x hx hroots howners => by
                  refine hclosed x ?_ hroots fun b hbal' hxb => ?_
                  · intro hx0
                    exact hx (by rw [Counts.delete_count, hx0, ite_self])
                  · cases decEq b a with
                    | isTrue hba => rw [hba]; exact hDa
                    | isFalse hba =>
                        exact howners b (by rw [Counts.delete_alive, if_neg hba]; exact hbal') hxb
                intro x hx
                cases List.mem_cons.mp hx with
                | inl hxa => rw [hxa]; exact hDa
                | inr hx => exact hrest x hx
          | isFalse h1 =>
              have hb := h.decr (by rwa [hlift])
              have hlt := h.sum_lt ((c.lift u).decr a) hne
                (by rw [Counts.decr_count, if_pos rfl]; omega)
                fun x hx => by rw [Counts.decr_count, if_neg hx]
              rw [← Counts.lift_decr h0] at hb hlt
              have hu' : ∀ x, u x ≠ 0 → (c.decr a).count x = 0 := by
                intro x hx
                have hxa : x ≠ a := fun hxa => hx (hxa ▸ hua)
                rw [Counts.decr_count, if_neg hxa]
                exact hu x hx
              obtain ⟨r, gone, hr, hbal, hur, hnd, hal, hD⟩ := ih hb hu' (by omega)
              refine ⟨r, gone, by rw [if_neg h1, hr], hbal, hur, hnd, hal, fun D hclosed => ?_⟩
              refine hD D fun x hx hroots howners => hclosed x (fun hx0 => hx ?_) hroots howners
              rw [Counts.decr_count]
              split
              · next hxa => rw [← hxa, hx0]
              · exact hx0

/-- The release deletes the doomed objects. -/
theorem mem_gone_iff (h : Balanced dom owns (fun x => ds.count x + (roots x + u x)) (c.lift u))
    (hu : ∀ a, u a ≠ 0 → c.count a = 0) (hfuel : ∑ x ∈ dom, (c.lift u).count x ≤ fuel)
    (hrel : c.release owns fuel ds = some (r, gone)) (x : α) :
    x ∈ gone ↔ Doomed owns (fun a => roots a + u a) c x := by
  obtain ⟨r', gone', hrel', hbal, -, -, -, hD⟩ := h.release hu hfuel
  rw [hrel] at hrel'
  cases hrel'
  constructor
  · exact hD _ (fun a h1 h2 h3 => .intro a h1 h2 h3) x
  · intro hx
    induction hx with
    | intro a hcount hroots howners ih =>
        by_contra hgone
        have hal : (c.lift u).alive a = true := (h.alive a).mpr fun h0 => hcount (by
          change c.count a + u a = 0 at h0
          omega)
        have hal' : (r.lift u).alive a = true := by
          change r.alive a = true
          rw [release_alive hrel a, show c.alive a = true from hal]
          simp [hgone]
        have hne := (hbal.alive a).mp hal'
        have hzero : internal dom owns r.alive a = 0 := by
          apply internal_eq_zero
          intro b _ hbal' hab
          rw [release_alive hrel b, Bool.and_eq_true] at hbal'
          have hbgone := ih b hbal'.1 hab
          simp [hbgone] at hbal'
        have hcnt := hbal.count a
        change _ = _ + internal dom owns r.alive a at hcnt
        omega

end Balanced

/-! ### Objects without a reference -/

/-- The counts say how many references there are, and what is referred to is alive. -/
structure Tallied (dom : Finset α) (owns : α → List α) (roots : α → Nat) (c : Counts α) :
    Prop where
  count : ∀ a, c.count a = roots a + internal dom owns c.alive a
  alive : ∀ a, c.count a ≠ 0 → c.alive a = true
  inside : ∀ a, c.alive a = true → a ∈ dom

/-- The counts are balanced but for what was lifted. -/
theorem Balanced.tallied (h : Balanced dom owns (fun a => roots a + u a) (c.lift u)) :
    Tallied dom owns roots c where
  count a := by
    have hcount : c.count a + u a = roots a + u a + internal dom owns c.alive a := h.count a
    omega
  alive a ha := (h.alive a).mpr (by
    change c.count a + u a ≠ 0
    omega)
  inside a ha := h.inside a ((h.alive a).mp ha)

namespace Tallied

theorem balanced (h : Tallied dom owns roots c) :
    Balanced dom owns (fun a => roots a + c.unused a) (c.lift c.unused) := by
  have halive : ∀ a, c.alive a = true ↔ c.count a + c.unused a ≠ 0 := by
    intro a
    unfold Counts.unused
    constructor
    · intro ha
      cases Nat.eq_zero_or_pos (c.count a) with
      | inl h0 => rw [if_pos ⟨ha, h0⟩, h0]; decide
      | inr hpos => omega
    · intro hne
      split at hne
      · next hc => exact hc.1
      · exact h.alive a hne
  refine ⟨fun a => ?_, halive, fun a ha => h.inside a ((halive a).mpr ha)⟩
  have hcount := h.count a
  change c.count a + c.unused a = roots a + c.unused a + internal dom owns c.alive a
  omega

theorem congr (h : Tallied dom owns roots c) (hr : ∀ a, roots' a = roots a) :
    Tallied dom owns roots' c :=
  ⟨fun a => by rw [hr]; exact h.count a, h.alive, h.inside⟩

theorem count_of_dead (h : Tallied dom owns roots c) (ha : c.alive a = false) :
    c.count a = 0 := by
  by_contra hne
  rw [h.alive a hne] at ha
  cases ha

theorem count_of_mem (h : Tallied dom owns roots c) (hb : c.alive b = true) (ha : a ∈ owns b) :
    c.count a ≠ 0 := by
  have hcount := h.count a
  have hle : (owns b).count a ≤ internal dom owns c.alive a :=
    count_le_internal (h.inside b hb) hb
  have hpos := List.count_pos_iff.mpr ha
  omega

/-- What an object owns that is alive is alive. -/
theorem alive_of_mem (h : Tallied dom owns roots c) (hb : c.alive b = true) (ha : a ∈ owns b) :
    c.alive a = true := h.alive a (h.count_of_mem hb ha)

/-- A new reference to an object that is alive. -/
theorem ref (h : Tallied dom owns roots c) (ha : c.alive a = true) :
    Tallied dom owns (fun x => [a].count x + roots x) (c.ref a) where
  count x := by
    have hx := h.count x
    rw [Counts.ref_count]
    change _ = _ + internal dom owns c.alive x
    split
    · next hxa =>
        rw [hxa] at hx ⊢
        rw [List.count_singleton_self]
        omega
    · next hxa =>
        rw [List.count_singleton, if_neg (by simpa using Ne.symm hxa)]
        omega
  alive x hx := by
    change c.alive x = true
    rw [Counts.ref_count] at hx
    split at hx
    · next hxa => rw [hxa]; exact ha
    · exact h.alive x hx
  inside := h.inside

/-- An object hands the references `ds` to the outside, or takes them from there. -/
theorem owned (h : Tallied dom owns roots c) (ha : c.alive a = true)
    (howns : ∀ x ≠ a, owns' x = owns x)
    (hroots : ∀ x, roots' x + (owns' a).count x = roots x + (owns a).count x) :
    Tallied dom owns' roots' c where
  count x := by
    have hx := h.count x
    have hin := internal_update owns owns' c.alive c.alive (h.inside a ha) howns
      (fun _ _ => rfl) x
    have hr := hroots x
    rw [ha, if_pos rfl, if_pos rfl] at hin
    omega
  alive := h.alive
  inside := h.inside

/-- A new object, to which there is no reference and which has none. -/
theorem create (h : Tallied dom owns roots c) (ha : a ∉ dom) (howns : ∀ x ≠ a, owns' x = owns x)
    (hnil : owns' a = []) :
    Tallied (insert a dom) owns' roots { c with alive := Function.update c.alive a true } where
  count x := by
    have hin : internal (insert a dom) owns' (Function.update c.alive a true) x =
        internal dom owns c.alive x := by
      unfold internal
      rw [Finset.sum_insert ha, hnil, List.count_nil, ite_self, Nat.zero_add]
      refine Finset.sum_congr rfl fun b hb => ?_
      have hba : b ≠ a := fun hba => ha (hba ▸ hb)
      rw [Function.update_of_ne hba, howns b hba]
    rw [hin]
    exact h.count x
  alive x hx := by
    change Function.update c.alive a true x = true
    rw [Function.update_apply]
    split
    · rfl
    · exact h.alive x hx
  inside x hx := by
    change Function.update c.alive a true x = true at hx
    rw [Function.update_apply] at hx
    split at hx
    · next hxa => rw [hxa]; exact Finset.mem_insert_self ..
    · exact Finset.mem_insert_of_mem (h.inside x hx)

end Tallied

/-- What a release leaves: `r` are the counts after it, and `gone` is what it has deleted. -/
structure Released (dom : Finset α) (owns : α → List α) (roots : α → Nat) (c r : Counts α)
    (gone : List α) : Prop where
  tallied : Tallied dom owns roots r
  nodup : gone.Nodup
  mem : ∀ x, x ∈ gone ↔ Doomed owns roots c x
  alive : ∀ x, r.alive x = (c.alive x && !decide (x ∈ gone))
  before : ∀ x ∈ gone, c.alive x = true
  count : ∀ x, c.count x ≠ 0 → (r.count x = 0 ↔ x ∈ gone)

namespace Tallied

/-- The references can be released. What is deleted is what is doomed, and that is all whose
count becomes zero. -/
theorem release (h : Tallied dom owns (fun x => ds.count x + roots x) c)
    (hfuel : ∑ x ∈ dom, (c.count x + 1) ≤ fuel) :
    ∃ r gone, c.release owns fuel ds = some (r, gone) ∧ Released dom owns roots c r gone := by
  have hb : Balanced dom owns (fun x => ds.count x + (roots x + c.unused x))
      (c.lift c.unused) := h.balanced.congr fun x => (Nat.add_assoc ..).symm
  have hsum : ∑ x ∈ dom, (c.lift c.unused).count x ≤ fuel := by
    refine Nat.le_trans (Finset.sum_le_sum fun x _ => Nat.add_le_add_left ?_ _) hfuel
    unfold Counts.unused
    split <;> omega
  have hu : ∀ a, c.unused a ≠ 0 → c.count a = 0 := fun a => Counts.count_of_unused
  -- an object with a reference to it has not been lifted
  have hua : ∀ a, c.count a ≠ 0 → c.unused a = 0 := by
    intro a ha
    by_contra hne
    exact ha (hu a hne)
  obtain ⟨r, gone, hrel, hbal, -, hnd, hal, -⟩ := hb.release hu hsum
  refine ⟨r, gone, hrel, hbal.tallied, hnd, fun x => ?_, release_alive hrel, hal, fun x hx => ?_⟩
  · rw [hb.mem_gone_iff hu hsum hrel x]
    constructor
    · intro hx
      induction hx with
      | intro a hcount hroots howners ih => exact .intro a hcount (by omega) ih
    · intro hx
      induction hx with
      | intro a hcount hroots howners ih =>
          have := hua a hcount
          exact .intro a hcount (by omega) ih
  · have halive : r.alive x = true ↔ r.count x + c.unused x ≠ 0 := hbal.alive x
    rw [release_alive hrel x, h.alive x hx, hua x hx] at halive
    cases Decidable.em (x ∈ gone) with
    | inl hg => simpa [hg] using halive
    | inr hg => simpa [hg] using halive

/-- The same when `b` still owns what is being dropped. It makes a difference only if `b` is
deleted on the way. -/
theorem release_stale (h : Tallied dom owns (fun x => ds.count x + roots x) c)
    (hfuel : ∑ x ∈ dom, (c.count x + 1) ≤ fuel) (howns : ∀ x ≠ b, owns' x = owns x) :
    (¬ Doomed owns roots c b → ∃ r gone, c.release owns' fuel ds = some (r, gone) ∧
      Released dom owns roots c r gone) ∧
    (Doomed owns roots c b → ∀ r gone, c.release owns' fuel ds = some (r, gone) →
      r.alive b = false) := by
  obtain ⟨r, gone, hrel, hr⟩ := h.release hfuel
  constructor
  · intro hb
    rw [← hr.mem b] at hb
    refine ⟨r, gone, release_congr hrel fun x hx => howns x ?_, hr⟩
    intro hxb
    exact hb (hxb ▸ hx)
  · intro hb r' gone' hrel'
    have hmem := release_mem hrel hrel' howns ((hr.mem b).mpr hb)
    simp [release_alive hrel' b, hmem]

end Tallied

end RefCount
