-- SUMMARY: Intrusive reference counts, and the cascade of destructors when references are dropped.
import Mathlib.Algebra.BigOperators.Group.Finset.Basic
import Mathlib.Algebra.BigOperators.Group.Finset.Piecewise
import Mathlib.Algebra.Order.BigOperators.Group.Finset

/-!
# Reference counting

Objects are counted: an object is deleted when its count drops to zero, and its
destructor then drops the references that it `owns`. The references to an object are
those from outside (`roots`) and those of the objects that are alive. The counts are
balanced if they say how many references there are.
-/

namespace RefCount

variable {α : Type*} [DecidableEq α]

/-- The counts, and which objects exist. -/
structure Counts (α : Type*) where
  count : α → Nat
  alive : α → Bool

namespace Counts

/-- A new object, with one reference to it. -/
def create (c : Counts α) (a : α) : Counts α where
  count := Function.update c.count a 1
  alive := Function.update c.alive a true

/-- `ref()`. -/
def ref (c : Counts α) (a : α) : Counts α :=
  { c with count := Function.update c.count a (c.count a + 1) }

/-- `unref()` that leaves other references. -/
def decr (c : Counts α) (a : α) : Counts α :=
  { c with count := Function.update c.count a (c.count a - 1) }

/-- `unref()` of the last reference. -/
def delete (c : Counts α) (a : α) : Counts α where
  count := Function.update c.count a 0
  alive := Function.update c.alive a false

theorem create_count (c : Counts α) (a x : α) :
    (c.create a).count x = if x = a then 1 else c.count x := Function.update_apply ..

theorem create_alive (c : Counts α) (a x : α) :
    (c.create a).alive x = if x = a then true else c.alive x := Function.update_apply ..

theorem ref_count (c : Counts α) (a x : α) :
    (c.ref a).count x = if x = a then c.count a + 1 else c.count x := Function.update_apply ..

theorem decr_count (c : Counts α) (a x : α) :
    (c.decr a).count x = if x = a then c.count a - 1 else c.count x := Function.update_apply ..

theorem delete_count (c : Counts α) (a x : α) :
    (c.delete a).count x = if x = a then 0 else c.count x := Function.update_apply ..

theorem delete_alive (c : Counts α) (a x : α) :
    (c.delete a).alive x = if x = a then false else c.alive x := Function.update_apply ..

/-- Drops the references `ds`, and those of the objects that are deleted on the way, as
long as `fuel` lasts. -/
def drop (owns : α → List α) : Nat → List α → Counts α → Counts α
  | 0, _, c => c
  | _ + 1, [], c => c
  | fuel + 1, a :: ds, c =>
    if c.count a = 1 then drop owns fuel (owns a ++ ds) (c.delete a)
    else drop owns fuel ds (c.decr a)

end Counts

/-- The references to `a` from the objects of `dom` that are alive. -/
def internal (dom : Finset α) (owns : α → List α) (alive : α → Bool) (a : α) : Nat :=
  ∑ b ∈ dom, if alive b then (owns b).count a else 0

/-- The counts say how many references there are, and an object is alive if there are any. -/
structure Balanced (dom : Finset α) (owns : α → List α) (roots : α → Nat) (c : Counts α) :
    Prop where
  count : ∀ a, c.count a = roots a + internal dom owns c.alive a
  alive : ∀ a, c.alive a = true ↔ c.count a ≠ 0
  inside : ∀ a, c.count a ≠ 0 → a ∈ dom

variable {dom dom' : Finset α} {owns owns' : α → List α} {roots roots' : α → Nat}
  {c c' : Counts α} {a b : α} {ds : List α}

/-- One summand changes. -/
theorem sum_add_of_ne {f g : α → Nat} (hb : b ∈ dom) (h : ∀ x ≠ b, f x = g x) :
    ∑ x ∈ dom, f x + g b = ∑ x ∈ dom, g x + f b := by
  have hf := Finset.add_sum_erase dom f hb
  have hg := Finset.add_sum_erase dom g hb
  have hrest : ∑ x ∈ dom.erase b, f x = ∑ x ∈ dom.erase b, g x :=
    Finset.sum_congr rfl fun x hx => h x (Finset.ne_of_mem_erase hx)
  omega

/-! ### References inside -/

/-- One object changes what it owns, or begins or ceases to exist. -/
theorem internal_update (owns owns' : α → List α) (alive alive' : α → Bool) (hb : b ∈ dom)
    (howns : ∀ x ≠ b, owns' x = owns x)
    (halive : ∀ x ≠ b, alive' x = alive x) (a : α) :
    internal dom owns' alive' a + (if alive b then (owns b).count a else 0) =
      internal dom owns alive a + if alive' b then (owns' b).count a else 0 := by
  unfold internal
  refine sum_add_of_ne (f := fun x => if alive' x then (owns' x).count a else 0)
    (g := fun x => if alive x then (owns x).count a else 0) hb fun x hx => ?_
  simp only [howns x hx, halive x hx]

theorem internal_delete (owns : α → List α) (hb : b ∈ dom) (halive : c.alive b = true) (a : α) :
    internal dom owns c.alive a = internal dom owns (c.delete b).alive a + (owns b).count a := by
  have h := internal_update owns owns c.alive (c.delete b).alive hb (fun _ _ => rfl)
    (fun x hx => Function.update_of_ne hx ..) a
  have hdel : (c.delete b).alive b = false := Function.update_self ..
  rw [halive, hdel] at h
  simpa using h.symm

/-- An object that is not referred to does not own a reference to anything. -/
theorem internal_eq_zero {alive : α → Bool} (h : ∀ b ∈ dom, alive b = true → a ∉ owns b) :
    internal dom owns alive a = 0 := by
  refine Finset.sum_eq_zero fun b hb => ?_
  split
  · next hal => exact List.count_eq_zero_of_not_mem (h b hb hal)
  · rfl

namespace Balanced

theorem not_alive (h : Balanced dom owns roots c) : c.alive a = false ↔ c.count a = 0 := by
  have ha := h.alive a
  cases hal : c.alive a with
  | false => simpa [hal] using ha
  | true => simpa [hal] using ha

theorem congr (h : Balanced dom owns roots c) (hr : ∀ a, roots' a = roots a) :
    Balanced dom owns roots' c :=
  ⟨fun a => by rw [hr]; exact h.count a, h.alive, h.inside⟩

/-- More objects, none of which exists yet. -/
theorem mono (h : Balanced dom owns roots c) (hsub : dom ⊆ dom') : Balanced dom' owns roots c where
  count a := by
    have hsum : internal dom owns c.alive a = internal dom' owns c.alive a :=
      Finset.sum_subset hsub fun b _ hb => by
        have hdead : c.alive b = false := h.not_alive.mpr (by
          by_contra hne
          exact hb (h.inside b hne))
        simp [hdead]
    rw [← hsum]
    exact h.count a
  alive := h.alive
  inside a ha := hsub (h.inside a ha)

/-- A new object, to which there is one reference. -/
theorem create (h : Balanced dom owns roots c) (ha : a ∈ dom) (hdead : c.alive a = false)
    (howns : owns a = []) :
    Balanced dom owns (fun x => roots x + if x = a then 1 else 0) (c.create a) where
  count x := by
    have hx := h.count x
    have hin := internal_update owns owns c.alive (c.create a).alive ha (fun _ _ => rfl)
      (fun x hx => Function.update_of_ne hx ..) x
    have hzero := h.not_alive.mp hdead
    rw [Counts.create_count]
    rw [howns] at hin
    simp only [List.count_nil, ite_self, Nat.add_zero] at hin
    rw [hin]
    by_cases hxa : x = a
    · subst hxa
      rw [if_pos rfl, if_pos rfl]
      omega
    · rw [if_neg hxa, if_neg hxa]
      omega
  alive x := by
    rw [Counts.create_count, Counts.create_alive]
    by_cases hxa : x = a
    · simp [hxa]
    · rw [if_neg hxa, if_neg hxa]
      exact h.alive x
  inside x hx := by
    rw [Counts.create_count] at hx
    split at hx
    · next hxa => rw [hxa]; exact ha
    · exact h.inside x hx

/-- A new reference to an object that is alive. -/
theorem ref (h : Balanced dom owns roots c) (halive : c.alive a = true) :
    Balanced dom owns (fun x => roots x + if x = a then 1 else 0) (c.ref a) where
  count x := by
    have hx := h.count x
    rw [Counts.ref_count]
    change _ = _ + internal dom owns c.alive x
    by_cases hxa : x = a
    · subst hxa
      rw [if_pos rfl, if_pos rfl]
      omega
    · rw [if_neg hxa, if_neg hxa]
      omega
  alive x := by
    rw [Counts.ref_count]
    change c.alive x = true ↔ _
    by_cases hxa : x = a
    · subst hxa
      simp [halive]
    · rw [if_neg hxa]
      exact h.alive x
  inside x hx := by
    rw [Counts.ref_count] at hx
    split at hx
    · next hxa => rw [hxa]; exact h.inside a ((h.alive a).mp halive)
    · exact h.inside x hx

/-- An object hands the references `ds` to the outside, or takes them from there. -/
theorem owned (h : Balanced dom owns roots c) (ha : c.alive a = true)
    (howns : ∀ x ≠ a, owns' x = owns x)
    (hroots : ∀ x, roots' x + (owns' a).count x = roots x + (owns a).count x) :
    Balanced dom owns' roots' c where
  count x := by
    have hx := h.count x
    have hin := internal_update owns owns' c.alive c.alive (h.inside a ((h.alive a).mp ha)) howns
      (fun _ _ => rfl) x
    have hr := hroots x
    rw [ha, if_pos rfl, if_pos rfl] at hin
    omega
  alive := h.alive
  inside := h.inside

/-! ### Dropping references -/

/-- A reference is dropped, and others remain. -/
theorem decr (h : Balanced dom owns (fun x => (a :: ds).count x + roots x) c)
    (hne : c.count a ≠ 1) :
    Balanced dom owns (fun x => ds.count x + roots x) (c.decr a) where
  count x := by
    have hx := h.count x
    rw [Counts.decr_count]
    change _ = ds.count x + roots x + internal dom owns c.alive x
    by_cases hxa : x = a
    · subst hxa
      rw [List.count_cons_self] at hx
      rw [if_pos rfl]
      omega
    · rw [List.count_cons_of_ne (Ne.symm hxa)] at hx
      rw [if_neg hxa]
      exact hx
  alive x := by
    have hcount := h.count a
    rw [List.count_cons_self] at hcount
    rw [Counts.decr_count]
    change c.alive x = true ↔ _
    rw [h.alive x]
    by_cases hxa : x = a
    · subst hxa
      rw [if_pos rfl]
      omega
    · rw [if_neg hxa]
  inside x hx := by
    refine h.inside x fun h0 => hx ?_
    rw [Counts.decr_count]
    split
    · next hxa => subst hxa; rw [h0]
    · exact h0

/-- The last reference is dropped, and those of the object are to be dropped. -/
theorem delete (h : Balanced dom owns (fun x => (a :: ds).count x + roots x) c)
    (hone : c.count a = 1) :
    Balanced dom owns (fun x => (owns a ++ ds).count x + roots x) (c.delete a) where
  count x := by
    have hne : c.count a ≠ 0 := by rw [hone]; decide
    have hx := h.count x
    have hin := internal_delete owns (h.inside a hne) ((h.alive a).mpr hne) x
    rw [Counts.delete_count, List.count_append]
    by_cases hxa : x = a
    · subst hxa
      rw [hone, List.count_cons_self] at hx
      rw [if_pos rfl]
      omega
    · rw [List.count_cons_of_ne (Ne.symm hxa)] at hx
      rw [if_neg hxa]
      omega
  alive x := by
    rw [Counts.delete_count, Counts.delete_alive]
    by_cases hxa : x = a
    · simp [hxa]
    · rw [if_neg hxa, if_neg hxa]
      exact h.alive x
  inside x hx := by
    rw [Counts.delete_count] at hx
    split at hx
    · exact absurd rfl hx
    · exact h.inside x hx

/-- Each reference that is dropped makes the sum of the counts smaller. -/
theorem sum_lt (h : Balanced dom owns roots c) (c' : Counts α) (ha : c.count a ≠ 0)
    (hlt : c'.count a + 1 = c.count a) (hle : ∀ x ≠ a, c'.count x = c.count x) :
    ∑ x ∈ dom, c'.count x < ∑ x ∈ dom, c.count x := by
  refine Finset.sum_lt_sum (fun x _ => ?_) ⟨a, h.inside a ha, by omega⟩
  by_cases hxa : x = a
  · subst hxa; omega
  · rw [hle x hxa]

/-- With enough fuel, `drop` drops all the references, and the counts are balanced again. -/
theorem drop {fuel : Nat} (h : Balanced dom owns (fun x => ds.count x + roots x) c)
    (hfuel : ∑ x ∈ dom, c.count x ≤ fuel) :
    Balanced dom owns roots (c.drop owns fuel ds) ∧
      ∀ x, (c.drop owns fuel ds).count x ≤ c.count x := by
  induction fuel generalizing ds c with
  | zero =>
      have hzero : ∀ a, c.count a = 0 := fun a => by
        by_contra hne
        have hle := Finset.single_le_sum (f := c.count) (fun x _ => Nat.zero_le _) (h.inside a hne)
        omega
      have hnil : ds = [] := List.eq_nil_iff_forall_not_mem.mpr fun a ha => by
        have hpos := List.count_pos_iff.mpr ha
        have hcount := h.count a
        rw [hzero a] at hcount
        omega
      subst hnil
      exact ⟨h.congr fun a => by simp, fun _ => Nat.le_refl _⟩
  | succ fuel ih =>
      cases ds with
      | nil => exact ⟨h.congr fun a => by simp, fun _ => Nat.le_refl _⟩
      | cons a ds =>
          have hne : c.count a ≠ 0 := by
            have hcount := h.count a
            rw [List.count_cons_self] at hcount
            omega
          unfold Counts.drop
          split
          · next hone =>
              have hlt := h.sum_lt (c.delete a) hne (by rw [Counts.delete_count, if_pos rfl, hone])
                fun x hx => by rw [Counts.delete_count, if_neg hx]
              obtain ⟨hb, hle⟩ := ih (h.delete hone) (by omega)
              refine ⟨hb, fun x => Nat.le_trans (hle x) ?_⟩
              rw [Counts.delete_count]
              split
              · exact Nat.zero_le _
              · exact Nat.le_refl _
          · next hone =>
              have hlt := h.sum_lt (c.decr a) hne (by rw [Counts.decr_count, if_pos rfl]; omega)
                fun x hx => by rw [Counts.decr_count, if_neg hx]
              obtain ⟨hb, hle⟩ := ih (h.decr hone) (by omega)
              refine ⟨hb, fun x => Nat.le_trans (hle x) ?_⟩
              rw [Counts.decr_count]
              split
              · next hxa => subst hxa; exact Nat.sub_le _ _
              · exact Nat.le_refl _

end Balanced

end RefCount
