-- SUMMARY: The counts say how many references there are, after every operation that does not release an object it still uses.
import Cxxdes.Logic.Transition
import Cxxdes.Memory.Heap

/-!
# Exact counts

An assignment takes a reference away from one `ptr` and gives it another one. In between, the
reference is in hand: `Tallied` counts it with the roots. The operations keep the counts
exact, and all of them succeed but for the copy assignments that are not `Safe`.
-/

namespace Cxxdes.Memory

open RefCount

namespace Heap

variable {h h' : Heap} {p q : Place} {o o' : Option ObjectId} {s s' : Slot} {a b x : ObjectId}
  {c : Counts ObjectId} {roots : ObjectId → Nat} {dom : Finset ObjectId}

/-! ### Reading and writing -/

theorem read_eq_some : h.read p = some o ↔
    h.counts.alive p.owner = true ∧ (h.slots p.owner)[p.index]? = some (.ptr o) := by
  unfold read
  split
  · next hal =>
      split
      · next hs => simp [hal, hs]
      · next hs => simpa [hal] using hs o
  · next hal => simp [hal]

theorem exists_read (hne : h.read p ≠ none) : ∃ o, h.read p = some o :=
  Option.ne_none_iff_exists'.mp hne

theorem set_slots_self : (h.set p s).slots p.owner = (h.slots p.owner).set p.index s :=
  Function.update_self ..

theorem set_slots_of_ne (ha : a ≠ p.owner) : (h.set p s).slots a = h.slots a :=
  Function.update_of_ne ha ..

theorem set_owned_of_ne (ha : a ≠ p.owner) : (h.set p s).owned a = h.owned a := by
  simp only [owned, set_slots_of_ne ha]

/-- Setting a member leaves the other ones. -/
theorem set_slot (hs : (h.slots p.owner)[p.index]? = some s') :
    ((h.set p s).slots q.owner)[q.index]? =
      if q = p then some s else (h.slots q.owner)[q.index]? := by
  cases Decidable.em (q.owner = p.owner) with
  | inl howner =>
      rw [howner, set_slots_self, List.getElem?_set]
      cases Decidable.em (p.index = q.index) with
      | inl hindex =>
          have hqp : q = p := by
            cases p
            cases q
            simp_all
          have hlt := (List.getElem?_eq_some_iff.mp hs).1
          rw [if_pos hindex, if_pos hqp, if_pos hlt]
      | inr hindex =>
          have hqp : q ≠ p := fun hqp => hindex (hqp ▸ rfl)
          rw [if_neg hindex, if_neg hqp]
  | inr howner =>
      have hqp : q ≠ p := fun hqp => howner (hqp ▸ rfl)
      rw [set_slots_of_ne howner, if_neg hqp]

theorem set_set : (h.set p s).set p s' = h.set p s' := by
  have hslots : Function.update (h.set p s).slots p.owner
      (((h.set p s).slots p.owner).set p.index s') =
        Function.update h.slots p.owner ((h.slots p.owner).set p.index s') := by
    rw [set_slots_self, List.set_set]
    exact Function.update_idem ..
  simp only [set] at hslots ⊢
  rw [hslots]

/-- Two `ptr`s are set in any order. -/
theorem set_comm (hne : p ≠ q) : (h.set p s).set q s' = (h.set q s').set p s := by
  have hslots : ((h.set p s).set q s').slots = ((h.set q s').set p s).slots := by
    funext a
    apply List.ext_getElem?
    intro i
    cases Decidable.em (p.owner = q.owner) with
    | inl howner =>
        have hindex : p.index ≠ q.index := fun hindex => hne (by cases p; cases q; simp_all)
        cases Decidable.em (a = q.owner) with
        | inl ha =>
            simp only [set, ha, howner, Function.update_self]
            rw [List.set_comm _ _ hindex]
        | inr ha => simp only [set, howner, Function.update_of_ne ha]
    | inr howner =>
        simp only [set, Function.update_of_ne howner, Function.update_of_ne (Ne.symm howner)]
        rw [Function.update_comm howner]
  simp only [set] at hslots ⊢
  rw [hslots]

theorem mem_owned : a ∈ h.owned b ↔ ∃ i : Nat, (h.slots b)[i]? = some (Slot.ptr (some a)) := by
  have htarget : ∀ s : Slot, s.target = some a ↔ s = .ptr (some a) := by
    intro s
    cases s with
    | ptr pointee => simp [Slot.target]
    | ended => simp [Slot.target]
  rw [owned, List.mem_reverse, List.mem_filterMap]
  simp only [htarget, exists_eq_right]
  exact List.mem_iff_getElem?

/-- One member changes. -/
theorem count_filterMap_set (s : Slot) (x : ObjectId) (l : List Slot) (i : Nat)
    (hs : l[i]? = some s') :
    ((l.set i s).filterMap Slot.target).count x + s'.target.toList.count x =
      (l.filterMap Slot.target).count x + s.target.toList.count x := by
  have hcons : ∀ (r : Slot) (l : List Slot), ((r :: l).filterMap Slot.target).count x =
      (l.filterMap Slot.target).count x + r.target.toList.count x := by
    intro r l
    cases hr : r.target with
    | none => simp [hr]
    | some a => simp [hr, List.count_cons]
  induction l generalizing i with
  | nil => cases hs
  | cons r l ih =>
      cases i with
      | zero =>
          cases hs
          rw [List.set_cons_zero, hcons, hcons]
          omega
      | succ i =>
          have hih := ih i hs
          rw [List.set_cons_succ, hcons, hcons]
          omega

/-- A `ptr` gives away its reference for the one in hand. -/
theorem tallied_set (ht : Tallied dom h.owned (fun x => s.target.toList.count x + roots x) c)
    (hal : c.alive p.owner = true) (hs : (h.slots p.owner)[p.index]? = some s') :
    Tallied dom (h.set p s).owned (fun x => s'.target.toList.count x + roots x) c := by
  apply ht.owned hal
  · intro a ha
    exact set_owned_of_ne ha
  · intro x
    have hcount := count_filterMap_set s x _ _ hs
    simp only [owned, List.count_reverse, set_slots_self]
    omega

/-- A `ptr` that has no reference takes the one in hand. -/
theorem tallied_put (ht : Tallied dom h.owned (fun x => s.target.toList.count x + roots x) c)
    (hal : c.alive p.owner = true) (hs : (h.slots p.owner)[p.index]? = some s')
    (hnone : s'.target = none) : Tallied dom (h.set p s).owned roots c :=
  (tallied_set ht hal hs).congr fun x => by simp [hnone]

/-- A `ptr` gives away its reference. -/
theorem tallied_take (ht : Tallied dom h.owned roots c) (hal : c.alive p.owner = true)
    (hs : (h.slots p.owner)[p.index]? = some s') (hnone : s.target = none) :
    Tallied dom (h.set p s).owned (fun x => s'.target.toList.count x + roots x) c := by
  apply tallied_set (ht.congr fun x => ?_) hal hs
  simp [hnone]

/-! ### What a release destroys -/

/-- `owned` without the reference of `p`. -/
theorem mem_owned_without (hp : h.read p = some o) :
    a ∈ (h.set p (.ptr none)).owned b ↔
      ∃ i : Nat, ⟨b, i⟩ ≠ p ∧ (h.slots b)[i]? = some (Slot.ptr (some a)) := by
  rw [mem_owned]
  apply exists_congr
  intro i
  have hset := set_slot (s := .ptr none) (q := ⟨b, i⟩) (read_eq_some.mp hp).2
  rw [hset]
  cases Decidable.em (⟨b, i⟩ = p) with
  | inl heq => simp [heq]
  | inr hne => simp [hne]

theorem doomed_iff (hp : h.read p = some o) : Doomed h p x ↔
    RefCount.Doomed (h.set p (.ptr none)).owned h.explicit h.counts x := by
  constructor
  · intro hx
    induction hx with
    | intro x hcount hexplicit hrefs ih =>
        refine .intro x hcount hexplicit fun b hal hmem => ?_
        obtain ⟨i, hne, hs⟩ := (mem_owned_without hp).mp hmem
        exact ih ⟨b, i⟩ hne (read_eq_some.mpr ⟨hal, hs⟩)
  · intro hx
    induction hx with
    | intro x hcount hexplicit howners ih =>
        refine .intro x hcount hexplicit fun r hne hr => ?_
        obtain ⟨hal, hs⟩ := read_eq_some.mp hr
        exact ih r.owner hal ((mem_owned_without hp).mpr ⟨r.index, hne, hs⟩)

end Heap

/-! ### The invariant -/

/-- The counts are exact, and `destroyed` are the objects that do not exist any more. -/
structure Exact (h : Heap) : Prop where
  tallied : Tallied (Finset.range h.next) h.owned h.explicit h.counts
  outside : h.explicit outside ≠ 0
  nodup : h.destroyed.Nodup
  destroyed : ∀ x, x ∈ h.destroyed ↔ x < h.next ∧ h.counts.alive x = false

/-- What an operation destroys are the objects whose count becomes zero. -/
def DestroysAtZero (h h' : Heap) : Prop :=
  ∀ x, x ∈ h'.destroyed ↔
    x ∈ h.destroyed ∨ h.counts.count x ≠ 0 ∧ h'.counts.count x = 0

/-- What every operation that is defined does. -/
structure Lands (h h' : Heap) : Prop where
  exact : Exact h'
  destroys : DestroysAtZero h h'

namespace Exact

variable {h h' : Heap} {p q : Place} {o o' : Option ObjectId} {s s' : Slot} {a x : ObjectId}
  {r : Counts ObjectId} {gone : List ObjectId} {owns : ObjectId → List ObjectId}
  {roots : ObjectId → Nat}

theorem init : Exact Heap.init where
  tallied := by
    refine ⟨fun a => ?_, fun a ha => ?_, fun a ha => ?_⟩
    · have hin : internal (Finset.range 1) Heap.init.owned Heap.init.counts.alive a = 0 :=
        internal_eq_zero fun b _ _ hmem => by simp [Heap.owned, Heap.init] at hmem
      change (if a = Memory.outside then 1 else 0) = (if a = Memory.outside then 1 else 0) +
        internal (Finset.range 1) Heap.init.owned Heap.init.counts.alive a
      omega
    · by_contra hne
      simp [Heap.init] at ha hne
      exact hne ha
    · have ha' : a = 0 := of_decide_eq_true ha
      simp [ha', Heap.init]
  outside := by decide
  nodup := List.nodup_nil
  destroyed x := by
    have hx : x < 1 ↔ x = Memory.outside := Nat.lt_one_iff
    simp [Heap.init, hx]

theorem alive_lt (hx : Exact h) (ha : h.counts.alive a = true) : a < h.next :=
  Finset.mem_range.mp (hx.tallied.inside a ha)

theorem alive_outside (hx : Exact h) : h.counts.alive Memory.outside = true := by
  apply hx.tallied.alive
  have hcount := hx.tallied.count Memory.outside
  have := hx.outside
  omega

/-- A `ptr` that exists points to an object that does. -/
theorem alive_of_read (hx : Exact h) (hp : h.read p = some (some a)) :
    h.counts.alive a = true := by
  obtain ⟨hal, hs⟩ := Heap.read_eq_some.mp hp
  exact hx.tallied.alive_of_mem hal (Heap.mem_owned.mpr ⟨p.index, hs⟩)

/-- An operation destroys `gone` and leaves the other objects. -/
theorem lands (hx : Exact h) (gone : List ObjectId) (hnext : h'.next = h.next)
    (hlog : h'.destroyed = h.destroyed ++ gone) (hnodup : gone.Nodup)
    (hbefore : ∀ x ∈ gone, h.counts.alive x = true)
    (halive : ∀ x, h'.counts.alive x = (h.counts.alive x && !decide (x ∈ gone)))
    (hcount : ∀ x, x ∈ gone ↔ h.counts.count x ≠ 0 ∧ h'.counts.count x = 0)
    (hout : h'.explicit Memory.outside ≠ 0)
    (ht : Tallied (Finset.range h.next) h'.owned h'.explicit h'.counts) : Lands h h' where
  exact := by
    refine ⟨by rw [hnext]; exact ht, hout, ?_, fun x => ?_⟩
    · rw [hlog]
      apply hx.nodup.append hnodup
      intro x hmem hgone
      have hdead := ((hx.destroyed x).mp hmem).2
      rw [hbefore x hgone] at hdead
      cases hdead
    · rw [hlog, hnext, halive x, List.mem_append, hx.destroyed x]
      cases hal : h.counts.alive x with
      | true =>
          have hlt := hx.alive_lt hal
          simp [hlt]
      | false =>
          have hgone : x ∉ gone := fun hgone => by
            rw [hbefore x hgone] at hal
            cases hal
          simp [hgone]
  destroys x := by rw [hlog, List.mem_append, hcount x]

/-- Nothing is destroyed if no count becomes zero. -/
theorem lands_alive (hx : Exact h) (hnext : h'.next = h.next) (hlog : h'.destroyed = h.destroyed)
    (halive : h'.counts.alive = h.counts.alive)
    (hcount : ∀ x, h.counts.count x ≠ 0 → h'.counts.count x ≠ 0)
    (hout : h'.explicit Memory.outside ≠ 0)
    (ht : Tallied (Finset.range h.next) h'.owned h'.explicit h'.counts) : Lands h h' := by
  apply hx.lands [] hnext (by rw [hlog, List.append_nil]) List.nodup_nil _ _ _ hout ht
  · intro x hmem
    cases hmem
  · intro x
    simp [halive]
  · intro x
    constructor
    · intro hmem
      cases hmem
    · intro hzero
      exact absurd hzero.2 (hcount x hzero.1)

/-- An operation releases references, and counts no others but to objects that have one. -/
theorem lands_released (hx : Exact h)
    (hr : Released (Finset.range h.next) owns roots h.counts r gone) (hnext : h'.next = h.next)
    (hlog : h'.destroyed = h.destroyed ++ gone) (halive : h'.counts.alive = r.alive)
    (hcount : ∀ x, h'.counts.count x = 0 ↔ r.count x = 0)
    (hout : h'.explicit Memory.outside ≠ 0)
    (ht : Tallied (Finset.range h.next) h'.owned h'.explicit h'.counts) : Lands h h' := by
  apply hx.lands gone hnext hlog hr.nodup hr.before _ _ hout ht
  · intro x
    rw [halive]
    exact hr.alive x
  · intro x
    rw [hcount x]
    constructor
    · intro hgone
      cases (hr.mem x).mp hgone with
      | intro _ hne _ _ => exact ⟨hne, (hr.count x hne).mpr hgone⟩
    · intro hzero
      exact (hr.count x hzero.1).mp hzero.2

/-! ### Releasing the object of a `ptr` -/

/-- The release before `p` is written goes wrong only if the object that stores `p` is
destroyed. -/
theorem release (hx : Exact h) (hp : h.read p = some o) :
    (¬ Doomed h p p.owner → ∃ r gone, h.counts.release h.owned h.fuel o.toList = some (r, gone) ∧
      Released (Finset.range h.next) (h.set p (.ptr none)).owned h.explicit h.counts r gone) ∧
    (Doomed h p p.owner → ∀ r gone, h.counts.release h.owned h.fuel o.toList = some (r, gone) →
      r.alive p.owner = false) := by
  obtain ⟨hal, hs⟩ := Heap.read_eq_some.mp hp
  have ht := Heap.tallied_take (s := .ptr none) hx.tallied hal hs rfl
  rw [Heap.doomed_iff hp]
  exact ht.release_stale (Nat.le_refl _) fun x hne => (Heap.set_owned_of_ne hne).symm

theorem not_doomed_outside (hx : Exact h) : ¬ Doomed h p Memory.outside := by
  intro hd
  cases hd with
  | intro _ _ hexplicit _ => exact hx.outside hexplicit

/-- Nothing is destroyed by the release of `nullptr`. -/
theorem not_doomed_null (hx : Exact h) (hp : h.read p = some none)
    (howner : p.owner = Memory.outside) :
    ¬ Doomed h p x := by
  have hout : ¬ Doomed h p p.owner := by
    rw [howner]
    exact hx.not_doomed_outside
  obtain ⟨r, gone, hrel, hr⟩ := (hx.release hp).1 hout
  rw [Heap.doomed_iff hp, ← hr.mem x]
  have hnil : h.counts.release h.owned h.fuel [] = some (h.counts, []) := by
    unfold Counts.release
    rfl
  cases hnil.symm.trans hrel
  exact List.not_mem_nil

/-! ### The operations -/

/-- `p`, which has no reference, takes a new one to an object that is alive. -/
theorem set_ref {c : Counts ObjectId} (log : List ObjectId)
    (hs : (h.slots p.owner)[p.index]? = some s) (hal : c.alive p.owner = true)
    (ht : Tallied (Finset.range h.next) (h.set p (.ptr none)).owned h.explicit c)
    (hpointee : ∀ a, o = some a → c.alive a = true) :
    ∃ c', (Heap.set { h with counts := c, destroyed := log } p (.ptr o)).ref o =
        some (Heap.set { h with counts := c', destroyed := log } p (.ptr o)) ∧
      c'.alive = c.alive ∧ (∀ x, c'.count x = c.count x + o.toList.count x) ∧
      Tallied (Finset.range h.next) (h.set p (.ptr o)).owned h.explicit c' := by
  have hs0 : ((h.set p (.ptr none)).slots p.owner)[p.index]? = some (.ptr none) := by
    rw [Heap.set_slot hs, if_pos rfl]
  cases o with
  | none => exact ⟨c, rfl, rfl, fun _ => rfl, ht⟩
  | some a =>
      have ha := hpointee a rfl
      refine ⟨c.ref a, ?_, rfl, fun x => ?_, ?_⟩
      · unfold Heap.ref
        exact if_pos ha
      · rw [Counts.ref_count, Option.toList_some, List.count_singleton]
        cases Decidable.em (x = a) with
        | inl hxa => simp [hxa]
        | inr hxa => simp [hxa, Ne.symm hxa]
      · rw [← Heap.set_set (s := .ptr none)]
        exact Heap.tallied_put (s := .ptr (some a)) (ht.ref ha) hal hs0 rfl

theorem copyAssign_eq (hp : h.read p = some o) (hq : h.read q = some o') :
    h.copyAssign p q = if o = o' then some h else
      (h.unref o).bind fun h1 => (h1.read q).bind fun pointee => (h1.read p).bind fun _ =>
        (h1.set p (.ptr pointee)).ref pointee := by
  simp only [Heap.copyAssign, hp, hq]
  rfl

theorem unref_eq_some (hrel : h.counts.release h.owned h.fuel o.toList = some (r, gone)) :
    h.unref o = some { h with counts := r, destroyed := h.destroyed ++ gone } := by
  rw [Heap.unref, hrel]
  rfl

/-- If neither `p` nor `q` is destroyed by the release, `p` gets what `q` had, and it is
alive. -/
theorem copyAssign (hx : Exact h) (hp : h.read p = some o) (hq : h.read q = some o')
    (hsafe : (Op.copyAssign p q).Safe h) :
    ∃ h', h.copyAssign p q = some h' ∧ Lands h h' ∧ h'.read p = some o' := by
  rw [copyAssign_eq hp hq]
  cases Decidable.em (o = o') with
  | inl heq =>
      refine ⟨h, if_pos heq, ?_, heq ▸ hp⟩
      exact hx.lands_alive rfl rfl rfl (fun _ hne => hne) hx.outside hx.tallied
  | inr hne =>
      rw [if_neg hne]
      have hdoom : ¬ Doomed h p p.owner ∧ ¬ Doomed h p q.owner := by
        apply Or.resolve_left hsafe
        rw [hp, hq]
        exact fun heq => hne (Option.some.inj heq)
      obtain ⟨hpal, hps⟩ := Heap.read_eq_some.mp hp
      obtain ⟨hqal, hqs⟩ := Heap.read_eq_some.mp hq
      obtain ⟨r, gone, hrel, hr⟩ := (hx.release hp).1 hdoom.1
      rw [Heap.doomed_iff hp, Heap.doomed_iff hp, ← hr.mem, ← hr.mem] at hdoom
      have hpal' : r.alive p.owner = true := by simp [hr.alive, hpal, hdoom.1]
      have hqal' : r.alive q.owner = true := by simp [hr.alive, hqal, hdoom.2]
      have hqp : q ≠ p := by
        intro heq
        rw [heq, hp] at hq
        exact hne (Option.some.inj hq)
      -- the reference that `q` has keeps the object alive
      have hmem : ∀ a, o' = some a → a ∈ (h.set p (.ptr none)).owned q.owner := fun a ha =>
        (Heap.mem_owned_without hp).mpr ⟨q.index, hqp, by rw [hqs, ha]⟩
      have hpointee : ∀ a, o' = some a → r.alive a = true := fun a ha =>
        hr.tallied.alive_of_mem hqal' (hmem a ha)
      rw [unref_eq_some hrel]
      have hq' : Heap.read { h with counts := r, destroyed := h.destroyed ++ gone } q = some o' :=
        Heap.read_eq_some.mpr ⟨hqal', hqs⟩
      have hp' : Heap.read { h with counts := r, destroyed := h.destroyed ++ gone } p = some o :=
        Heap.read_eq_some.mpr ⟨hpal', hps⟩
      simp only [Option.bind_some, hq', hp']
      obtain ⟨c, href, halive, hcount, ht⟩ :=
        set_ref (h.destroyed ++ gone) hps hpal' hr.tallied hpointee
      refine ⟨_, href, ?_, Heap.read_eq_some.mpr ⟨by rw [← hpal', ← halive]; rfl, ?_⟩⟩
      · apply hx.lands_released hr
        · rfl
        · rfl
        · exact halive
        · intro x
          change c.count x = 0 ↔ _
          rw [hcount x]
          cases Decidable.em (x ∈ o'.toList) with
          | inl hx' =>
              have hne0 := hr.tallied.count_of_mem hqal' (hmem x (Option.mem_toList.mp hx'))
              omega
          | inr hx' => rw [List.count_eq_zero_of_not_mem hx', Nat.add_zero]
        · exact hx.outside
        · exact ht
      · have hset := Heap.set_slot (q := p) (s := .ptr o') hps
        rw [if_pos rfl] at hset
        exact hset

/-- What `copyAssign` still reads has not been destroyed. -/
theorem safe_of_copyAssign (hx : Exact h) (hp : h.read p = some o) (hq : h.read q = some o')
    (hok : h.copyAssign p q = some h') : (Op.copyAssign p q).Safe h := by
  rw [copyAssign_eq hp hq] at hok
  cases Decidable.em (o = o') with
  | inl heq => exact .inl (by rw [hp, hq, heq])
  | inr hne =>
      right
      rw [if_neg hne] at hok
      obtain ⟨h1, hunref, hok⟩ := Option.bind_eq_some_iff.mp hok
      obtain ⟨new, hq1, hok⟩ := Option.bind_eq_some_iff.mp hok
      obtain ⟨old, hp1, -⟩ := Option.bind_eq_some_iff.mp hok
      obtain ⟨⟨r, gone⟩, hrel, heq⟩ := Option.map_eq_some_iff.mp hunref
      cases heq
      have hpal : r.alive p.owner = true := (Heap.read_eq_some.mp hp1).1
      have hqal : r.alive q.owner = true := (Heap.read_eq_some.mp hq1).1
      have hpdoom : ¬ Doomed h p p.owner := by
        intro hd
        have hdead := (hx.release hp).2 hd r gone hrel
        rw [hpal] at hdead
        cases hdead
      refine ⟨hpdoom, fun hd => ?_⟩
      obtain ⟨r', gone', hrel', hr⟩ := (hx.release hp).1 hpdoom
      cases hrel.symm.trans hrel'
      rw [Heap.doomed_iff hp, ← hr.mem] at hd
      simp [hr.alive, hd] at hqal

theorem moveAssign_eq (hp : h.read p = some o) (hq : h.read q = some o') :
    h.moveAssign p q = some ((h.set p (.ptr o')).set q (.ptr o)) := by
  simp only [Heap.moveAssign, hp, hq]
  rfl

/-- The two `ptr`s exchange what they have. -/
theorem moveAssign (hx : Exact h) (hp : h.read p = some o) (hq : h.read q = some o') :
    ∃ h', h.moveAssign p q = some h' ∧ Lands h h' := by
  obtain ⟨hpal, hps⟩ := Heap.read_eq_some.mp hp
  obtain ⟨hqal, hqs⟩ := Heap.read_eq_some.mp hq
  refine ⟨_, moveAssign_eq hp hq, hx.lands_alive rfl rfl rfl (fun _ hne => hne) hx.outside ?_⟩
  have htake := Heap.tallied_take (s := .ptr none) hx.tallied hpal hps rfl
  have hs0 : ((h.set p (.ptr none)).slots p.owner)[p.index]? = some (.ptr none) := by
    rw [Heap.set_slot hps, if_pos rfl]
  cases Decidable.em (q = p) with
  | inl heq =>
      have ho : o = o' := by
        rw [heq, hp] at hq
        exact Option.some.inj hq
      rw [heq, ho, Heap.set_set, ← Heap.set_set (s := .ptr none)]
      exact Heap.tallied_put (s := .ptr o') (ho ▸ htake) hpal hs0 rfl
  | inr hne =>
      have hq0 : ((h.set p (.ptr none)).slots q.owner)[q.index]? = some (.ptr o') := by
        rw [Heap.set_slot hps, if_neg hne, hqs]
      have hp0 : (((h.set p (.ptr none)).set q (.ptr o)).slots p.owner)[p.index]? =
          some (.ptr none) := by
        rw [Heap.set_slot hq0, if_neg (Ne.symm hne), hs0]
      have hput := Heap.tallied_put (s := .ptr o') (p := p)
        (Heap.tallied_set (s := .ptr o) htake hqal hq0) hpal hp0 rfl
      rw [← Heap.set_comm hne, Heap.set_set] at hput
      rw [Heap.set_comm (Ne.symm hne)]
      exact hput

/-- The `ptr` that a constructor initializes. -/
theorem push (hx : Exact h) : Lands h h.push := by
  have howned : ∀ a, h.push.owned a = h.owned a := by
    intro a
    unfold Heap.owned Heap.push
    simp only [Function.update_apply]
    split
    · next ha => simp [ha, Slot.target]
    · rfl
  apply hx.lands_alive
  · rfl
  · rfl
  · rfl
  · exact fun _ hne => hne
  · exact hx.outside
  · have hfun : h.push.owned = h.owned := funext howned
    rw [hfun]
    exact hx.tallied

theorem push_pushed (h : Heap) :
    (h.push.slots h.pushed.owner)[h.pushed.index]? = some (.ptr none) := by
  unfold Heap.push Heap.pushed
  simp

theorem read_pushed (hx : Exact h) : h.push.read h.pushed = some none :=
  Heap.read_eq_some.mpr ⟨hx.alive_outside, push_pushed h⟩

theorem read_push (hq : h.read q = some o) : h.push.read q = some o := by
  obtain ⟨hal, hs⟩ := Heap.read_eq_some.mp hq
  refine Heap.read_eq_some.mpr ⟨hal, ?_⟩
  unfold Heap.push
  simp only [Function.update_apply]
  split
  · next ha =>
      rw [ha] at hs
      rw [List.getElem?_append_left (List.getElem?_eq_some_iff.mp hs).1, hs]
  · exact hs

theorem of_push (hl : Lands h.push h') : Lands h h' := ⟨hl.exact, hl.destroys⟩

theorem construct (hx : Exact h) (ho : ∀ a, o = some a → h.counts.alive a = true) :
    ∃ h', h.construct o = some h' ∧ Lands h h' := by
  have hpx := hx.push.exact
  have ht := Heap.tallied_take (p := h.pushed) (s := .ptr none) hpx.tallied hx.alive_outside
    (push_pushed h) rfl
  obtain ⟨c, href, halive, hcount, ht⟩ := set_ref (o := o) h.push.destroyed (push_pushed h)
    hx.alive_outside (ht.congr fun x => by simp [Slot.target]) ho
  refine ⟨_, href, of_push ?_⟩
  apply hpx.lands_alive
  · rfl
  · rfl
  · exact halive
  · intro x hne
    change c.count x ≠ 0
    rw [hcount x]
    exact fun h0 => hne (Nat.eq_zero_of_add_eq_zero_right h0)
  · exact hpx.outside
  · exact ht

theorem copyConstruct (hx : Exact h) (hq : h.read q = some o) :
    ∃ h', h.copyConstruct q = some h' ∧ Lands h h' := by
  have hpx := hx.push.exact
  have hp := hx.read_pushed
  obtain ⟨h', hok, hl, -⟩ := hpx.copyAssign hp (read_push hq)
    (.inr ⟨hpx.not_doomed_null hp rfl, hpx.not_doomed_null hp rfl⟩)
  exact ⟨h', hok, of_push hl⟩

theorem moveConstruct (hx : Exact h) (hq : h.read q = some o) :
    ∃ h', h.moveConstruct q = some h' ∧ Lands h h' := by
  obtain ⟨h', hok, hl⟩ := hx.push.exact.moveAssign hx.read_pushed (read_push hq)
  exact ⟨h', hok, of_push hl⟩

theorem destroy {i : Nat} (hx : Exact h) (hp : h.read ⟨Memory.outside, i⟩ = some o) :
    ∃ h', h.destroy i = some h' ∧ Lands h h' := by
  obtain ⟨r, gone, hrel, hr⟩ := (hx.release hp).1 hx.not_doomed_outside
  have hs := (Heap.read_eq_some.mp hp).2
  have hs0 : ((Heap.set h ⟨Memory.outside, i⟩ (.ptr none)).slots Memory.outside)[i]? =
      some (.ptr none) := by
    have hset := Heap.set_slot (q := ⟨Memory.outside, i⟩) (s := .ptr none) hs
    rw [if_pos rfl] at hset
    exact hset
  have hout : r.alive Memory.outside = true := by
    apply hr.tallied.alive
    have hcount := hr.tallied.count Memory.outside
    have := hx.outside
    omega
  refine ⟨Heap.set { h with counts := r, destroyed := h.destroyed ++ gone }
    ⟨Memory.outside, i⟩ .ended, ?_, ?_⟩
  · simp only [Heap.destroy, hp]
    change (h.unref o).bind _ = _
    rw [unref_eq_some hrel]
    rfl
  · apply hx.lands_released hr
    · rfl
    · rfl
    · rfl
    · exact fun _ => Iff.rfl
    · exact hx.outside
    · have ht : Tallied (Finset.range h.next)
          (Heap.set h ⟨Memory.outside, i⟩ (.ptr none)).owned
          (fun x => Slot.ended.target.toList.count x + h.explicit x) r :=
        hr.tallied.congr fun x => by simp [Slot.target]
      have hput := Heap.tallied_put (p := ⟨Memory.outside, i⟩) (s := .ended) ht hout hs0 rfl
      rw [Heap.set_set] at hput
      exact hput

theorem ref (hx : Exact h) (ha : h.counts.alive a = true) :
    ∃ h', h.exec (.ref a) = some h' ∧ Lands h h' := by
  refine ⟨{ h with
    counts := h.counts.ref a
    explicit := Function.update h.explicit a (h.explicit a + 1) }, ?_, ?_⟩
  · simp only [Heap.exec, Heap.ref, if_pos ha]
    rfl
  · apply hx.lands_alive
    · rfl
    · rfl
    · rfl
    · intro x hne
      change (h.counts.ref a).count x ≠ 0
      rw [Counts.ref_count]
      split
      · exact Nat.succ_ne_zero _
      · exact hne
    · have hout := hx.outside
      change Function.update h.explicit a (h.explicit a + 1) Memory.outside ≠ 0
      rw [Function.update_apply]
      split
      · exact Nat.succ_ne_zero _
      · exact hout
    · refine (hx.tallied.ref ha).congr fun x => ?_
      change Function.update h.explicit a (h.explicit a + 1) x = _
      rw [Function.update_apply, List.count_singleton]
      cases Decidable.em (x = a) with
      | inl hxa =>
          rw [hxa]
          simp
          omega
      | inr hxa => simp [hxa, Ne.symm hxa]

theorem unref (hx : Exact h) (hout : a ≠ Memory.outside) (ha : h.explicit a ≠ 0) :
    ∃ h', h.exec (.unref a) = some h' ∧ Lands h h' := by
  have htally : Tallied (Finset.range h.next) h.owned
      (fun x => [a].count x + Function.update h.explicit a (h.explicit a - 1) x) h.counts := by
    refine hx.tallied.congr fun x => ?_
    rw [Function.update_apply, List.count_singleton]
    cases Decidable.em (x = a) with
    | inl hxa =>
        rw [hxa]
        simp
        omega
    | inr hxa => simp [hxa, Ne.symm hxa]
  obtain ⟨r, gone, hrel, hr⟩ := htally.release (Nat.le_refl _)
  refine ⟨{ h with
    explicit := Function.update h.explicit a (h.explicit a - 1)
    counts := r
    destroyed := h.destroyed ++ gone }, ?_, ?_⟩
  · exact unref_eq_some (o := some a)
      (h := { h with explicit := Function.update h.explicit a (h.explicit a - 1) }) hrel
  · apply hx.lands_released hr
    · rfl
    · rfl
    · rfl
    · exact fun _ => Iff.rfl
    · change Function.update h.explicit a (h.explicit a - 1) Memory.outside ≠ 0
      rw [Function.update_of_ne (Ne.symm hout)]
      exact hx.outside
    · exact hr.tallied

theorem new (hx : Exact h) (n : Nat) : Lands h (h.new n) := by
  have hdead : h.counts.alive h.next = false := by
    cases hal : h.counts.alive h.next with
    | false => rfl
    | true => exact absurd (hx.alive_lt hal) (Nat.lt_irrefl _)
  have hzero := hx.tallied.count_of_dead hdead
  constructor
  · constructor
    · have hne : ∀ x ≠ h.next, (h.new n).owned x = h.owned x := by
        intro x hne
        unfold Heap.owned Heap.new
        simp only [Function.update_of_ne hne]
      have hnil : (h.new n).owned h.next = [] := by
        unfold Heap.owned Heap.new
        simp [Slot.target]
      have ht := hx.tallied.create Finset.notMem_range_self hne hnil
      rw [← Finset.range_add_one] at ht
      exact ht
    · exact hx.outside
    · exact hx.nodup
    · intro x
      change x ∈ h.destroyed ↔ x < h.next + 1 ∧ Function.update h.counts.alive h.next true x = false
      rw [hx.destroyed x, Function.update_apply]
      split
      · next hxn => simp [hxn]
      · next hxn =>
          rw [Nat.lt_succ_iff_lt_or_eq, or_iff_left hxn]
  · intro x
    change x ∈ h.destroyed ↔ x ∈ h.destroyed ∨ h.counts.count x ≠ 0 ∧ h.counts.count x = 0
    constructor
    · exact .inl
    · intro hor
      cases hor with
      | inl hmem => exact hmem
      | inr hcount => exact absurd hcount.2 hcount.1

/-- Every operation that is safe succeeds. -/
theorem exec (hx : Exact h) {op : Op} (hal : h.Allowed op) (hsafe : op.Safe h) :
    ∃ h', h.exec op = some h' ∧ Lands h h' := by
  cases op with
  | new n => exact ⟨_, rfl, hx.new n⟩
  | construct o =>
      apply hx.construct
      intro a ha
      rw [ha] at hal
      exact hal.2
  | copyConstruct q =>
      obtain ⟨o, hq⟩ := Heap.exists_read hal
      exact hx.copyConstruct hq
  | moveConstruct q =>
      obtain ⟨o, hq⟩ := Heap.exists_read hal
      exact hx.moveConstruct hq
  | copyAssign p q =>
      obtain ⟨o, hp⟩ := Heap.exists_read hal.1
      obtain ⟨o', hq⟩ := Heap.exists_read hal.2
      obtain ⟨h', hok, hl, -⟩ := hx.copyAssign hp hq hsafe
      exact ⟨h', hok, hl⟩
  | moveAssign p q =>
      obtain ⟨o, hp⟩ := Heap.exists_read hal.1
      obtain ⟨o', hq⟩ := Heap.exists_read hal.2
      exact hx.moveAssign hp hq
  | destroy i =>
      obtain ⟨o, hp⟩ := Heap.exists_read hal
      exact hx.destroy hp
  | ref a => exact hx.ref hal.2
  | unref a => exact hx.unref hal.1 hal.2

/-- No other operation succeeds. -/
theorem safe_of_exec (hx : Exact h) {op : Op} (hal : h.Allowed op) (hok : h.exec op = some h') :
    op.Safe h := by
  cases op with
  | copyAssign p q =>
      obtain ⟨o, hp⟩ := Heap.exists_read hal.1
      obtain ⟨o', hq⟩ := Heap.exists_read hal.2
      exact hx.safe_of_copyAssign hp hq hok
  | _ => trivial

theorem exec_lands (hx : Exact h) {op : Op} (hal : h.Allowed op) (hok : h.exec op = some h') :
    Lands h h' := by
  obtain ⟨h1, hok1, hl⟩ := hx.exec hal (hx.safe_of_exec hal hok)
  cases hok.symm.trans hok1
  exact hl

theorem copyAssign_read (hx : Exact h) (hal : h.Allowed (.copyAssign p q))
    (hok : h.copyAssign p q = some h') : h'.read p = h.read q := by
  obtain ⟨o, hp⟩ := Heap.exists_read hal.1
  obtain ⟨o', hq⟩ := Heap.exists_read hal.2
  obtain ⟨h1, hok1, -, hread⟩ := hx.copyAssign hp hq (hx.safe_of_copyAssign hp hq hok)
  cases hok.symm.trans hok1
  rw [hread, hq]

end Exact

/-! ### Runs -/

/-- One operation that is defined. -/
def Step (h : Heap) (op : Op) (h' : Heap) : Prop := h.Allowed op ∧ h.exec op = some h'

theorem Exact.of_runs {h : Heap}
    (hr : Transition.Runs Step (fun h op => op.Safe h) Heap.init h) : Exact h :=
  hr.invariant (fun _ _ _ hx _ hstep => (hx.exec_lands hstep.1 hstep.2).exact) .init

/-- In every run of safe operations each count is the number of references, a `ptr` points to an
object that is alive, an object is destroyed when its count becomes zero and never again, and
`p = q` gives `p` the object of `q`. Exactly the operations that are safe succeed. -/
theorem refcounts_exact {h : Heap}
    (hr : Transition.Runs Step (fun h op => op.Safe h) Heap.init h) :
    (∀ x, h.counts.count x = h.references x) ∧
      (∀ p x, h.read p = some (some x) → h.counts.alive x = true) ∧
      h.destroyed.Nodup ∧
      (∀ x, x ∈ h.destroyed ↔ x < h.next ∧ h.counts.alive x = false) ∧
      (∀ op, h.Allowed op → ((∃ h', h.exec op = some h') ↔ op.Safe h)) ∧
      (∀ op h', Step h op h' → DestroysAtZero h h') ∧
      ∀ p q h', Step h (.copyAssign p q) h' → h'.read p = h.read q ∧
        ∀ x, h.read q = some (some x) → h'.counts.alive x = true := by
  have hx := Exact.of_runs hr
  refine ⟨hx.tallied.count, fun p x hp => hx.alive_of_read hp, hx.nodup, hx.destroyed,
    fun op hal => ⟨fun ⟨h', hok⟩ => hx.safe_of_exec hal hok, fun hsafe => ?_⟩,
    fun op h' hstep => (hx.exec_lands hstep.1 hstep.2).destroys, fun p q h' hstep => ?_⟩
  · obtain ⟨h', hok, -⟩ := hx.exec hal hsafe
    exact ⟨h', hok⟩
  · have hread := hx.copyAssign_read hstep.1 hstep.2
    refine ⟨hread, fun x hq => ?_⟩
    exact (hx.exec_lands hstep.1 hstep.2).exact.alive_of_read (hread.trans hq)

namespace Heap

/-- The operations one after the other. -/
def run (h : Heap) : List Op → Option Heap
  | [] => some h
  | op :: ops => if h.Allowed op then (h.exec op).bind fun h => h.run ops else none

end Heap

theorem Exact.runs {h h' : Heap} {ops : List Op} (hx : Exact h) (hrun : h.run ops = some h') :
    Transition.Runs Step (fun h op => op.Safe h) h h' := by
  induction ops generalizing h with
  | nil =>
      cases hrun
      exact .refl _
  | cons op ops ih =>
      unfold Heap.run at hrun
      split at hrun
      · next hal =>
          obtain ⟨h1, hok, hrun⟩ := Option.bind_eq_some_iff.mp hrun
          have hstep : Transition.Runs Step (fun h op => op.Safe h) h h1 :=
            Transition.Runs.tail (.refl h) (hx.safe_of_exec hal hok) ⟨hal, hok⟩
          exact hstep.trans (ih (hx.exec_lands hal hok).exact hrun)
      · cases hrun

/-- A list of two objects, with a `ptr` to the first. -/
def twoNodes : List Op :=
  [.new 1, .new 0, .construct (some 1), .construct (some 2), .copyAssign ⟨1, 0⟩ ⟨0, 1⟩, .destroy 1]

/-- `other = p; p = p->next;` -/
def nextOfShared : List Op := twoNodes ++ [.copyConstruct ⟨0, 0⟩, .copyAssign ⟨0, 0⟩ ⟨1, 0⟩]

theorem refcounts_exact_nextOfShared :
    ((Heap.init.run nextOfShared).map fun h => (h.counts.count 2, decide h.destroyed.Nodup)) =
      some (2, true) := by
  cases hrun : Heap.init.run nextOfShared with
  | none => exact absurd hrun (by decide +kernel)
  | some h =>
      have hall := refcounts_exact (Exact.runs .init hrun)
      have hrefs : (Heap.init.run nextOfShared).map (·.references 2) = some 2 := by
        decide +kernel
      rw [hrun] at hrefs
      have htwo : h.references 2 = 2 := Option.some.inj hrefs
      simp [hall.1 2, htwo, hall.2.2.1]

/-- `p = p->next;` if there is no other reference to `*p`. -/
theorem next_of_last_reference :
    ∃ h, Transition.Runs Step (fun h op => op.Safe h) Heap.init h ∧
      h.Allowed (.copyAssign ⟨0, 0⟩ ⟨1, 0⟩) ∧ h.exec (.copyAssign ⟨0, 0⟩ ⟨1, 0⟩) = none := by
  cases hrun : Heap.init.run twoNodes with
  | none => exact absurd hrun (by decide +kernel)
  | some h =>
      have hlast : (Heap.init.run twoNodes).map (fun h =>
          decide (h.Allowed (.copyAssign ⟨0, 0⟩ ⟨1, 0⟩)) &&
            (h.exec (.copyAssign ⟨0, 0⟩ ⟨1, 0⟩)).isNone) = some true := by decide +kernel
      rw [hrun, Option.map_some, Option.some_inj, Bool.and_eq_true, decide_eq_true_iff,
        Option.isNone_iff_eq_none] at hlast
      exact ⟨h, Exact.runs .init hrun, hlast.1, hlast.2⟩

end Cxxdes.Memory
