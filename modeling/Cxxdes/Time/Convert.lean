-- SUMMARY: The conversion between time representations, and the quantities whose duration it keeps.
import Cxxdes.Time.Units

/-!
# Conversion between representations

`time<Integer>::operator=(time<I> const &)` divides the count by 1000 and takes the next unit
until the count fits. The next unit is the finer one, so that a conversion that has to rescale
does not keep the duration.
-/

namespace Cxxdes.TimeUtils

open MachineInt Rounding

variable {I : IntType}

/-! ### The loop -/

/-- `new_t > max || new_t < min`, in the common type of the two. -/
def outOfRange (J : IntType) (newT : Word I) : Bool :=
  let C := I.common J
  decide (C.wrap J.max < C.wrap newT.val) || decide (C.wrap newT.val < C.wrap J.min)

def thousand : Word .int := ⟨1000, by decide⟩

/-- `new_t / 1000`. -/
def scaleDown (newT : Word I) : Option (Word I) := do
  let x ← (newT.convert (I.common .int)).div (thousand.convert _)
  return x.convert I

/-- The loop of the conversion, if it ends within `n` rounds. -/
def rescale (J : IntType) : Nat → Word I → Nat → Option (Word I × Nat)
  | 0, newT, newU => if outOfRange J newT then none else some (newT, newU)
  | n + 1, newT, newU =>
    if outOfRange J newT then do
      let newT ← scaleDown newT
      let newU := newU + 1
      if newU = TimeUnitType.count.index - 1 then return (newT, newU)
      else rescale J n newT newU
    else some (newT, newU)

/-- `time<Integer>::operator=(time<I> const &)`, if its loop ends within `n` rounds. -/
def Time.assign (n : Nat) (J : IntType) (other : Time I) : Option (Time J) :=
  (rescale J n other.t other.u.index).map fun r => ⟨r.1.convert J, .ofIndex r.2⟩

/-! ### Durations -/

/-- The seconds a quantity stands for. -/
def Time.duration (q : Time I) : ℚ := q.t.val / 1000 ^ q.u.index

/-- Rounded toward zero, the duration is a quantity of type `J` in some unit. -/
def Time.Representable (J : IntType) (q : Time I) : Prop :=
  ∃ u : TimeUnitType, u.Supported ∧ J.Fits (truncate (q.duration * 1000 ^ u.index))

/-- The conversion ends with a physical unit and loses less than one of it. -/
def Time.Converts (J : IntType) (q : Time I) : Prop :=
  ∃ n r, q.assign n J = some r ∧ r.u.Supported ∧
    |r.duration - q.duration| < 1 / 1000 ^ r.u.index

/-! ### When the loop is entered -/

theorem scaleDown_eq (x : Word I) :
    scaleDown x = some ⟨x.val.tdiv 1000, x.fits.tdiv (by decide)⟩ := by
  obtain ⟨hI, hint⟩ := I.bits_common .int
  have hx : (I.common .int).Fits x.val := by
    apply x.fits.widen hI
    cases hs : I.signed with
    | false => exact .inl (IntType.min_unsigned hs ▸ x.fits.1)
    | true => exact .inr (IntType.signed_common hs rfl)
  have hm : (I.common .int).Fits thousand.val := thousand.fits.widen hint (.inl (by decide))
  have hval := Word.convert_val hm
  have hpos : 0 < (thousand.convert (I.common .int)).val := by
    rw [hval]
    decide
  have hquot : (x.convert (I.common .int)).val.tdiv (thousand.convert (I.common .int)).val =
      x.val.tdiv 1000 := by
    rw [hval, Word.convert_val hx]
    rfl
  have hfits := hquot.symm ▸ x.fits.tdiv (d := 1000) (by decide)
  unfold scaleDown
  rw [Word.div_pos _ hpos]
  simp only [Option.bind_eq_bind, Option.bind_some, Option.pure_def, Option.some.injEq, Word.eq_iff]
  refine (Word.convert_val ?_).trans hquot
  exact hfits

/-- A value of the target type is in range, as long as the comparison with `min` is exact. -/
theorem outOfRange_of_fits {J : IntType} {x : Word I} (hx : J.Fits x.val)
    (hmin : (I.common J).Fits J.min) : outOfRange J x = false := by
  obtain ⟨-, hJ⟩ := I.bits_common J
  have hmax : (I.common J).Fits J.max :=
    ⟨Int.le_trans (IntType.min_nonpos _) J.max_nonneg, IntType.max_le hJ⟩
  have hC := hmin.between hmax hx.1 hx.2
  simp only [outOfRange, IntType.wrap_of_fits hmin, IntType.wrap_of_fits hmax,
    IntType.wrap_of_fits hC, Bool.or_eq_false_iff, decide_eq_false_iff_not]
  exact ⟨Int.not_lt.mpr hx.2, Int.not_lt.mpr hx.1⟩

/-- Compared without signs, `min` is above every value of the target type. -/
theorem outOfRange_unsigned {J : IntType} {x : Word I} (hx : J.Fits x.val)
    (hmin : ¬ (I.common J).Fits J.min) : outOfRange J x = true := by
  obtain ⟨hI, hJ⟩ := I.bits_common J
  have hJfits : J.Fits J.min := ⟨Int.le_refl _, Int.le_trans J.min_nonpos J.max_nonneg⟩
  have hC : (I.common J).signed = false := by
    cases hs : (I.common J).signed with
    | false => rfl
    | true => exact absurd (hJfits.widen hJ (.inr hs)) hmin
  have hsJ : J.signed = true := by
    cases hs : J.signed with
    | true => rfl
    | false =>
        have h0 := IntType.min_unsigned hs
        exact absurd (hJfits.widen hJ (.inl (by rw [h0]))) hmin
  have hsI : I.signed = false := by
    cases hs : I.signed with
    | false => rfl
    | true =>
        have h := IntType.signed_common hs hsJ
        rw [hC] at h
        cases h
  have hxC : (I.common J).Fits x.val :=
    x.fits.widen hI (.inl (IntType.min_unsigned hsI ▸ x.fits.1))
  have hcard := IntType.card_mono (IntType.width_common hC)
  have hmax := J.max_eq
  have hJcard := J.card_pos
  have hneg : J.min < 0 := by
    have h : ¬ 0 ≤ J.min := fun h => hmin (hJfits.widen hJ (.inl h))
    omega
  have hwrap : (I.common J).wrap J.min = J.min + (I.common J).card := by
    apply IntType.wrap_neg hC hneg
    have := J.max_nonneg
    omega
  simp only [outOfRange, IntType.wrap_of_fits hxC, hwrap, Bool.or_eq_true, decide_eq_true_eq]
  have := hx.2
  omega

/-! ### The loop -/

/-- What the loop returns: the count divided by 1000 as often as the unit was changed. -/
theorem rescale_some {J : IntType} {n u v : Nat} {x y : Word I}
    (h : rescale J n x u = some (y, v)) :
    (outOfRange J x = false ∧ y = x ∧ v = u) ∨
      ∃ k, outOfRange J x = true ∧ v = u + (k + 1) ∧ y.val = x.val.tdiv (1000 ^ (k + 1)) := by
  induction n generalizing x u with
  | zero =>
      simp only [rescale] at h
      split at h
      · cases h
      · next hx =>
          cases h
          exact .inl ⟨by simpa using hx, rfl, rfl⟩
  | succ n ih =>
      simp only [rescale, scaleDown_eq, Option.bind_eq_bind, Option.bind_some] at h
      split at h
      · next hx =>
          refine .inr ?_
          split at h
          · cases h
            exact ⟨0, hx, rfl, by simp⟩
          · cases ih h with
            | inl h0 =>
                obtain ⟨-, rfl, rfl⟩ := h0
                exact ⟨0, hx, rfl, by simp⟩
            | inr h0 =>
                obtain ⟨k, -, rfl, hy⟩ := h0
                refine ⟨k + 1, hx, by omega, ?_⟩
                rw [hy, tdiv_tdiv _ _ (by decide), ← Int.pow_succ']
      · next hx =>
          cases h
          exact .inl ⟨by simpa using hx, rfl, rfl⟩

/-- A 0 is rescaled up to the last unit, if the comparison with `min` is not exact. -/
theorem rescale_zero {J : IntType} (hmin : ¬ (I.common J).Fits J.min) {n u : Nat} {x : Word I}
    (hx : x.val = 0) (hu : u + (n + 1) = 4) :
    ∃ y, rescale J (n + 1) x u = some (y, 4) ∧ y.val = 0 := by
  have hout : outOfRange J x = true := outOfRange_unsigned (by rw [hx]; exact J.fits_zero) hmin
  have hsame : (⟨x.val.tdiv 1000, x.fits.tdiv (by decide)⟩ : Word I) = x := by
    apply Word.eq_iff.mpr
    simp only [hx]
    rfl
  have hlast : TimeUnitType.count.index - 1 = 4 := rfl
  induction n generalizing u with
  | zero =>
      refine ⟨x, ?_, hx⟩
      rw [rescale, if_pos hout, scaleDown_eq, hsame]
      simp only [Option.bind_eq_bind, Option.bind_some, hlast]
      rw [if_pos hu, hu]
      rfl
  | succ n ih =>
      obtain ⟨y, hy, hy0⟩ := ih (u := u + 1) (by omega)
      refine ⟨y, ?_, hy0⟩
      have hne : ¬ u + 1 = 4 := by omega
      rw [rescale, if_pos hout, scaleDown_eq, hsame]
      simp only [Option.bind_eq_bind, Option.bind_some, hlast, hne, if_false]
      exact hy

/-! ### The duration -/

/-- Less than one unit away from a coarser quantity is exactly the same duration. -/
theorem close_iff (a b : ℤ) (u k : Nat) :
    |(a : ℚ) / 1000 ^ (u + k) - b / 1000 ^ u| < 1 / 1000 ^ (u + k) ↔ a = b * 1000 ^ k := by
  have hM : (0 : ℚ) < 1000 ^ (u + k) := by positivity
  have hdiff : (a : ℚ) / 1000 ^ (u + k) - b / 1000 ^ u =
      ((a - b * 1000 ^ k : ℤ) : ℚ) / 1000 ^ (u + k) := by
    push_cast
    rw [pow_add]
    field_simp
  rw [hdiff, abs_div, abs_of_pos hM, div_lt_div_iff_of_pos_right hM, ← Int.cast_abs]
  rw [← Int.cast_one, Int.cast_lt, Int.abs_lt_one_iff]
  omega

/-- Only 0 is the same divided and multiplied. -/
theorem eq_zero_of_tdiv_eq_mul {x d : ℤ} (hd : 1 < d) (h : x.tdiv d = x * d) : x = 0 := by
  have h1 := Int.natAbs_tdiv_le_natAbs x d
  rw [h, Int.natAbs_mul] at h1
  have h2 : x.natAbs * 2 ≤ x.natAbs * d.natAbs := Nat.mul_le_mul_left _ (by omega)
  omega

theorem TimeUnitType.eq_picoseconds {u : TimeUnitType} (h : u.index = 4) : u = .picoseconds := by
  cases u with
  | picoseconds => rfl
  | seconds | milliseconds | microseconds | nanoseconds | count => cases h
  | beyond n => cases h

/-- The conversion keeps the duration of the counts that it does not have to rescale, and of 0. -/
theorem Time.converts_iff {J : IntType} {q : Time I} (hq : q.u.Supported) :
    q.Converts J ↔ (J.Fits q.t.val ∧ (I.common J).Fits J.min) ∨
      (q.t.val = 0 ∧ q.u ≠ .picoseconds) := by
  have hq5 : q.u.index < 5 := hq
  constructor
  · rintro ⟨n, r, hr, hsup, hclose⟩
    unfold assign at hr
    obtain ⟨⟨y, v⟩, hy, rfl⟩ := Option.map_eq_some_iff.mp hr
    have hv5 : v < 5 := by
      have h : (TimeUnitType.ofIndex v).index < 5 := hsup
      rwa [TimeUnitType.index_ofIndex] at h
    have hwrap := J.wrap_fits y.val
    simp only [duration, TimeUnitType.index_ofIndex] at hclose
    cases rescale_some hy with
    | inl h =>
        -- the loop was not entered
        obtain ⟨hout, rfl, rfl⟩ := h
        have heq := (close_iff (J.wrap q.t.val) q.t.val q.u.index 0).mp hclose
        rw [Int.pow_zero, Int.mul_one] at heq
        rw [heq] at hwrap
        refine .inl ⟨hwrap, ?_⟩
        by_contra hmin
        rw [outOfRange_unsigned hwrap hmin] at hout
        cases hout
    | inr h =>
        obtain ⟨k, hout, rfl, hyv⟩ := h
        have heq := (close_iff (J.wrap y.val) q.t.val q.u.index (k + 1)).mp hclose
        rw [heq] at hwrap
        have hpow2 : (1 : ℤ) < 1000 ^ (k + 1) := one_lt_pow₀ (by decide) (Nat.succ_ne_zero k)
        have hpow : (0 : ℤ) < 1000 ^ (k + 1) := Int.lt_trans (by decide) hpow2
        -- the count fits, so that the loop was entered for the comparison with `min`
        have hfit : J.Fits q.t.val := hwrap.of_mul hpow
        have hmin : ¬ (I.common J).Fits J.min := by
          intro hmin
          rw [outOfRange_of_fits hfit hmin] at hout
          cases hout
        refine .inr ⟨?_, fun hps => ?_⟩
        · rw [hyv, IntType.wrap_of_fits (hfit.tdiv hpow)] at heq
          exact eq_zero_of_tdiv_eq_mul hpow2 heq
        · rw [hps] at hv5
          have hps4 : TimeUnitType.picoseconds.index = 4 := rfl
          omega
  · have hkeep : J.Fits q.t.val → (I.common J).Fits J.min → q.Converts J := by
      intro hfit hmin
      have hrun : rescale J 0 q.t q.u.index = some (q.t, q.u.index) := by
        rw [rescale, outOfRange_of_fits hfit hmin, if_neg Bool.false_ne_true]
      refine ⟨0, ⟨q.t.convert J, .ofIndex q.u.index⟩, ?_, ?_, ?_⟩
      · rw [assign, hrun]
        rfl
      · rw [TimeUnitType.Supported, TimeUnitType.index_ofIndex]
        exact hq
      · simp only [duration, TimeUnitType.index_ofIndex]
        apply (close_iff _ q.t.val q.u.index 0).mpr
        rw [Word.convert_val hfit, Int.pow_zero, Int.mul_one]
    rintro (⟨hfit, hmin⟩ | ⟨h0, hu⟩)
    · exact hkeep hfit hmin
    · have hfit : J.Fits q.t.val := by
        rw [h0]
        exact J.fits_zero
      by_cases hmin : (I.common J).Fits J.min
      · exact hkeep hfit hmin
      · have hlt : q.u.index < 4 := by
          have hne : q.u.index ≠ 4 := fun h => hu (TimeUnitType.eq_picoseconds h)
          omega
        obtain ⟨k, hk⟩ : ∃ k, q.u.index + (k + 1) = 4 := ⟨3 - q.u.index, by omega⟩
        obtain ⟨y, hrun, hy⟩ := rescale_zero hmin h0 hk
        have hyfit : J.Fits y.val := by
          rw [hy]
          exact J.fits_zero
        have hps : TimeUnitType.picoseconds.Supported := by decide
        refine ⟨k + 1, ⟨y.convert J, .ofIndex 4⟩, ?_, hps, ?_⟩
        · rw [assign, hrun]
          rfl
        · simp only [duration, TimeUnitType.index_ofIndex]
          rw [← hk]
          apply (close_iff _ q.t.val q.u.index (k + 1)).mpr
          rw [Word.convert_val hyfit, hy, h0, Int.zero_mul]

/-- A conversion keeps every duration that the target type can represent if and only if it need
not rescale the count, or the count is 0 and the unit not the last one. -/
theorem Time.assign_keeps_duration {J : IntType} {q : Time I} (hq : q.u.Supported) :
    (q.Representable J → q.Converts J) ↔
      (q.Representable J → (J.Fits q.t.val ∧ (I.common J).Fits J.min) ∨
        (q.t.val = 0 ∧ q.u ≠ .picoseconds)) :=
  imp_congr_right fun _ => Time.converts_iff hq

/-- `signed char`. -/
def schar : IntType := ⟨true, 8, by decide⟩

theorem Time.assign_keeps_duration_ms :
    (⟨⟨5, by decide⟩, .milliseconds⟩ : Time intmax).Converts schar := by
  have hrep : (⟨⟨5, by decide⟩, .milliseconds⟩ : Time intmax).Representable schar :=
    ⟨.milliseconds, by decide, by decide +kernel⟩
  exact (Time.assign_keeps_duration (by decide)).mpr (fun _ => .inl (by decide)) hrep

/-- 2000 ms are 2 s, but become 2 us. -/
theorem Time.assign_changes_duration :
    ¬ ∀ (I J : IntType) (q : Time I), J.width < I.width → q.u.Supported →
      q.Representable J → q.Converts J := by
  intro h
  have hrep : (⟨⟨2000, by decide⟩, .milliseconds⟩ : Time intmax).Representable schar :=
    ⟨.seconds, by decide, by decide +kernel⟩
  have h1 := h intmax schar ⟨⟨2000, by decide⟩, .milliseconds⟩ (by decide) (by decide) hrep
  rw [Time.converts_iff (by decide)] at h1
  exact absurd h1 (by decide)

end Cxxdes.TimeUtils
