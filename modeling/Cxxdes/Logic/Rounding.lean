-- SUMMARY: Rounding a fraction toward zero, its integer division, and what rounding before a multiplication loses.
import Mathlib.Data.Rat.Floor
import Mathlib.Tactic.Ring
import Mathlib.Tactic.Linarith
import Mathlib.Tactic.FieldSimp

/-!
# Rounding toward zero

`truncate` drops the fraction of a number. Integer division truncates the exact quotient; and a
multiple of a truncated number is the truncated multiple as long as the fractions dropped add
up to less than one.
-/

namespace Rounding

/-- `q` without its fraction. -/
def truncate (q : ℚ) : ℤ := if 0 ≤ q then ⌊q⌋ else ⌈q⌉

theorem truncate_of_nonneg {q : ℚ} (h : 0 ≤ q) : truncate q = ⌊q⌋ := if_pos h

theorem truncate_neg (q : ℚ) : truncate (-q) = -truncate q := by
  unfold truncate
  rcases lt_trichotomy q 0 with h | h | h
  · rw [if_pos (by linarith), if_neg (by linarith), Int.floor_neg]
  · subst h
    simp
  · rw [if_neg (by linarith), if_pos h.le, Int.ceil_neg]

/-- Integer division rounds toward zero. -/
theorem truncate_div (a : ℤ) {b : ℤ} (hb : 0 < b) : truncate (a / b : ℚ) = a.tdiv b := by
  have hb' : (0 : ℚ) < b := by exact_mod_cast hb
  have hfloor : ∀ c : ℤ, 0 ≤ c → truncate (c / b : ℚ) = c.tdiv b := by
    intro c hc
    have hc' : (0 : ℚ) ≤ c := by exact_mod_cast hc
    rw [truncate_of_nonneg (div_nonneg hc' hb'.le), Int.tdiv_eq_ediv_of_nonneg hc]
    obtain ⟨n, rfl⟩ := Int.eq_ofNat_of_zero_le hb.le
    exact Rat.floor_intCast_div_natCast c n
  cases Int.le_total 0 a with
  | inl ha => exact hfloor a ha
  | inr ha =>
      have h := hfloor (-a) (by omega)
      rw [Int.cast_neg, neg_div, truncate_neg, Int.neg_tdiv] at h
      omega

theorem tdiv_tdiv (a c : ℤ) {b : ℤ} (hb : 0 < b) :
    (a.tdiv b).tdiv c = a.tdiv (b * c) := by
  have hnonneg : ∀ m : ℤ, 0 ≤ m → (m.tdiv b).tdiv c = m.tdiv (b * c) := by
    intro m hm
    rw [Int.tdiv_eq_ediv_of_nonneg hm, Int.tdiv_eq_ediv_of_nonneg hm,
      Int.tdiv_eq_ediv_of_nonneg (Int.ediv_nonneg hm hb.le), Int.ediv_ediv_of_nonneg hb.le]
  cases Int.le_total 0 a with
  | inl ha => exact hnonneg a ha
  | inr ha =>
      have h := hnonneg (-a) (by omega)
      rw [Int.neg_tdiv, Int.neg_tdiv, Int.neg_tdiv] at h
      omega

/-- Rounding twice is rounding once. -/
theorem truncate_div_mul (a : ℤ) {b c : ℤ} (hb : 0 < b) (hc : 0 < c) :
    truncate (a / (b * c) : ℚ) = (a.tdiv b).tdiv c := by
  have h := truncate_div a (Int.mul_pos hb hc)
  rw [Int.cast_mul] at h
  rw [h, tdiv_tdiv a c hb]

/-- The multiples of a number and of its integer part. -/
theorem floor_mul_eq (n : ℤ) {q : ℚ} (hn : 0 ≤ n) :
    ⌊n * q⌋ = n * ⌊q⌋ ↔ n * Int.fract q < 1 := by
  have hn' : (0 : ℚ) ≤ n := by exact_mod_cast hn
  have hsplit : n * q = ((n * ⌊q⌋ : ℤ) : ℚ) + n * Int.fract q := by
    rw [Int.cast_mul, ← mul_add, Int.floor_add_fract]
  have hpos : 0 ≤ n * Int.fract q := mul_nonneg hn' (Int.fract_nonneg q)
  rw [hsplit, Int.floor_intCast_add]
  constructor
  · intro h
    have h0 : ⌊(n : ℚ) * Int.fract q⌋ = 0 := by omega
    exact (Int.floor_eq_zero_iff.mp h0).2
  · intro h
    have h0 : ⌊(n : ℚ) * Int.fract q⌋ = 0 := Int.floor_eq_zero_iff.mpr ⟨hpos, h⟩
    omega

theorem truncate_mul_eq (n : ℤ) {q : ℚ} (hq : 0 ≤ q) :
    truncate (n * q) = n * truncate q ↔ |(n : ℚ)| * Int.fract q < 1 := by
  have hnonneg : ∀ m : ℤ, 0 ≤ m → (truncate (m * q) = m * truncate q ↔
      |(m : ℚ)| * Int.fract q < 1) := by
    intro m hm
    have hm' : (0 : ℚ) ≤ m := by exact_mod_cast hm
    rw [truncate_of_nonneg hq, truncate_of_nonneg (mul_nonneg hm' hq), abs_of_nonneg hm']
    exact floor_mul_eq m hm
  cases Int.le_total 0 n with
  | inl hn => exact hnonneg n hn
  | inr hn =>
      have h := hnonneg (-n) (by omega)
      rw [Int.cast_neg, neg_mul, truncate_neg, Int.neg_mul, abs_neg] at h
      rw [← h]
      omega

/-- A multiple of the truncated number is between 0 and the truncated multiple. -/
theorem mul_truncate_le (n : ℤ) {q : ℚ} (hq : 0 ≤ q) :
    (0 ≤ n → 0 ≤ n * truncate q ∧ n * truncate q ≤ truncate (n * q)) ∧
      (n ≤ 0 → truncate (n * q) ≤ n * truncate q ∧ n * truncate q ≤ 0) := by
  have hnonneg : ∀ m : ℤ, 0 ≤ m → 0 ≤ m * truncate q ∧ m * truncate q ≤ truncate (m * q) := by
    intro m hm
    have hm' : (0 : ℚ) ≤ m := by exact_mod_cast hm
    rw [truncate_of_nonneg hq, truncate_of_nonneg (mul_nonneg hm' hq)]
    refine ⟨Int.mul_nonneg hm (Int.floor_nonneg.mpr hq), Int.le_floor.mpr ?_⟩
    rw [Int.cast_mul]
    exact mul_le_mul_of_nonneg_left (Int.floor_le q) hm'
  refine ⟨hnonneg n, fun hn => ?_⟩
  have h := hnonneg (-n) (by omega)
  rw [Int.cast_neg, neg_mul (n : ℚ) q, truncate_neg, Int.neg_mul] at h
  omega

/-! ### What rounding drops -/

/-- The fraction that `truncate` drops. -/
def dropped (q : ℚ) : ℚ := |truncate q - q|

/-- Whole numbers lose nothing. -/
theorem dropped_eq_zero {q : ℚ} : dropped q = 0 ↔ ∃ n : ℤ, q = n := by
  unfold dropped
  rw [abs_eq_zero, sub_eq_zero]
  constructor
  · exact fun h => ⟨truncate q, h.symm⟩
  · rintro ⟨n, rfl⟩
    unfold truncate
    split <;> simp

/-- An integer division by `b` drops at most `|b| - 1` of `|b|` parts. -/
theorem abs_tdiv_sub_div_le (a : ℤ) {b : ℤ} (hb : b ≠ 0) :
    |(a.tdiv b : ℚ) - a / b| ≤ (|(b : ℚ)| - 1) / |(b : ℚ)| := by
  have hb' : (b : ℚ) ≠ 0 := by exact_mod_cast hb
  have hsplit : (a : ℚ) = b * a.tdiv b + a.tmod b := by
    exact_mod_cast (Int.mul_tdiv_add_tmod a b).symm
  have hrest : (a.tdiv b : ℚ) - a / b = -(a.tmod b / b) := by
    rw [eq_neg_iff_add_eq_zero, hsplit]
    field_simp
    ring
  have hlt : |a.tmod b| + 1 ≤ |b| := by
    rw [Int.abs_eq_natAbs, Int.abs_eq_natAbs, Int.natAbs_tmod]
    have := Nat.mod_lt a.natAbs (Int.natAbs_pos.mpr hb)
    omega
  have hlt' : |(a.tmod b : ℚ)| ≤ |(b : ℚ)| - 1 := by
    rw [le_sub_iff_add_le, ← Int.cast_abs, ← Int.cast_abs]
    exact_mod_cast hlt
  rw [hrest, abs_neg, abs_div]
  exact div_le_div_of_nonneg_right hlt' (abs_nonneg _)

end Rounding
