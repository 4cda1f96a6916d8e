-- SUMMARY: How far the ticks that a time expression counts can be from the duration it stands for.
import Cxxdes.Time.Expr

/-!
# Rounding errors

The quantities of a time expression are converted one by one, and each conversion and each division
truncates. The errors add up over sums and differences and are scaled by the scalars.
-/

namespace Cxxdes.TimeUtils

open MachineInt Rounding

namespace Node

/-- The units of the quantities are physical units. -/
def Supported : Node (Word intmax) → Prop
  | time q => q.u.Supported
  | unitless _ | null => True
  | neg a | mulScalar a _ | scalarMul _ a | divScalar a _ | expr a => a.Supported
  | add a b | sub a b => a.Supported ∧ b.Supported

/-- What the expression counts to, without the bounds of the machine integers. -/
def value (env : TimeBase) : Node (Word intmax) → ℤ
  | time q => truncate (q.ticks env.precision)
  | unitless x => x.val * truncate (env.unit.ticks env.precision)
  | neg a => -a.value env
  | add a b => a.value env + b.value env
  | sub a b => a.value env - b.value env
  | mulScalar a b => a.value env * b.val
  | scalarMul a b => a.val * b.value env
  | divScalar a b => (a.value env).tdiv b.val
  | null => 0
  | expr n => n.value env

/-- How many ticks the duration is that the expression stands for. -/
def ticks (env : TimeBase) : Node (Word intmax) → ℚ
  | time q => q.ticks env.precision
  | unitless x => x.val * env.unit.ticks env.precision
  | neg a => -a.ticks env
  | add a b => a.ticks env + b.ticks env
  | sub a b => a.ticks env - b.ticks env
  | mulScalar a b => a.ticks env * b.val
  | scalarMul a b => a.val * b.ticks env
  | divScalar a b => a.ticks env / b.val
  | null => 0
  | expr value => value.ticks env

/-- Nothing has to be truncated: the quantities and model units are whole numbers of ticks, and the
divisions leave no remainder. -/
def Whole (env : TimeBase) : Node (Word intmax) → Prop
  | time q => ∃ k : ℤ, q.ticks env.precision = k
  | unitless _ => ∃ k : ℤ, env.unit.ticks env.precision = k
  | neg a | mulScalar a _ | scalarMul _ a | expr a => a.Whole env
  | add a b | sub a b => a.Whole env ∧ b.Whole env
  | divScalar a b => a.Whole env ∧ ∃ k : ℤ, a.ticks env = b.val * k
  | null => True

/-- What the truncations of a count can add up to. -/
def error (env : TimeBase) : Node (Word intmax) → ℚ
  | time q => dropped (q.ticks env.precision)
  | unitless x => |(x.val : ℚ)| * dropped (env.unit.ticks env.precision)
  | neg a => a.error env
  | add a b | sub a b => a.error env + b.error env
  | mulScalar a b => a.error env * |(b.val : ℚ)|
  | scalarMul a b => |(a.val : ℚ)| * b.error env
  | divScalar a b => (a.error env + |(b.val : ℚ)| - 1) / |(b.val : ℚ)|
  | null => 0
  | expr value => value.error env

end Node

/-! ### One operation -/

section
variable {x y x' y' ex ey : ℚ}

theorem abs_add_sub_add_le (hx : |x' - x| ≤ ex) (hy : |y' - y| ≤ ey) :
    |(x' + y') - (x + y)| ≤ ex + ey := by
  rw [add_sub_add_comm]
  exact (abs_add_le _ _).trans (add_le_add hx hy)

theorem abs_sub_sub_sub_le (hx : |x' - x| ≤ ex) (hy : |y' - y| ≤ ey) :
    |(x' - y') - (x - y)| ≤ ex + ey := by
  rw [sub_sub_sub_comm]
  exact (abs_sub _ _).trans (add_le_add hx hy)

theorem abs_neg_sub_neg_le (hx : |x' - x| ≤ ex) : |-x' - -x| ≤ ex := by
  rw [neg_sub_neg, abs_sub_comm]
  exact hx

theorem abs_mul_sub_mul_le (hx : |x' - x| ≤ ex) (b : ℚ) : |x' * b - x * b| ≤ ex * |b| := by
  rw [← sub_mul, abs_mul]
  exact mul_le_mul_of_nonneg_right hx (abs_nonneg b)

theorem abs_scalar_mul_sub_le (hx : |x' - x| ≤ ex) (b : ℚ) : |b * x' - b * x| ≤ |b| * ex := by
  rw [mul_comm b, mul_comm b, mul_comm |b|]
  exact abs_mul_sub_mul_le hx b

/-- The error of the dividend is divided, and the division truncates. -/
theorem abs_tdiv_sub_le {a : ℤ} (b : ℤ) (hx : |(a : ℚ) - x| ≤ ex) :
    |(a.tdiv b : ℚ) - x / b| ≤ (ex + |(b : ℚ)| - 1) / |(b : ℚ)| := by
  rcases eq_or_ne b 0 with rfl | hb
  · simp
  have hdiv : |(a : ℚ) / b - x / b| ≤ ex / |(b : ℚ)| := by
    rw [← sub_div, abs_div]
    exact div_le_div_of_nonneg_right hx (abs_nonneg _)
  calc |(a.tdiv b : ℚ) - x / b|
      ≤ |(a.tdiv b : ℚ) - a / b| + |(a : ℚ) / b - x / b| := abs_sub_le _ _ _
    _ ≤ (|(b : ℚ)| - 1) / |(b : ℚ)| + ex / |(b : ℚ)| := add_le_add (abs_tdiv_sub_div_le a hb) hdiv
    _ = (ex + |(b : ℚ)| - 1) / |(b : ℚ)| := by ring

end

/-! ### Expressions -/

variable {env : TimeBase} {n : Node (Word intmax)} {r : Word intmax}

namespace Node

/-- A count that does not overflow. -/
theorem count_value (hu : env.unit.u.Supported) (hp : env.precision.u.Supported)
    (hpos : 0 < env.precision.t.val) (hn : n.Supported) (h : n.count integers env = some r) :
    r.val = n.value env := by
  have hquantity : ∀ {q : Time intmax} {c : Word intmax}, q.u.Supported →
      q.count env.precision = some c → c.val = truncate (q.ticks env.precision) :=
    fun hq hc => ((Time.count_eq_some hq hp hpos).mp hc).1
  induction n generalizing r with
  | time q =>
      obtain ⟨c, hc, rfl⟩ := Option.map_eq_some_iff.mp h
      exact hquantity hn hc
  | unitless x =>
      obtain ⟨c, hc, hr⟩ := Option.bind_eq_some_iff.mp h
      have hval : x.val * c.val = r.val := (IntType.result_signed rfl).mp hr
      rw [← hval, value, hquantity hu hc]
  | neg a ih =>
      obtain ⟨v, hv, hr⟩ := Option.bind_eq_some_iff.mp h
      have hval : -v.val = r.val := (IntType.result_signed rfl).mp hr
      rw [← hval, value, ih hn hv]
  | add a b iha ihb =>
      obtain ⟨v, hv, h⟩ := Option.bind_eq_some_iff.mp h
      obtain ⟨w, hw, hr⟩ := Option.bind_eq_some_iff.mp h
      have hval : v.val + w.val = r.val := (IntType.result_signed rfl).mp hr
      rw [← hval, value, iha hn.1 hv, ihb hn.2 hw]
  | sub a b iha ihb =>
      obtain ⟨v, hv, h⟩ := Option.bind_eq_some_iff.mp h
      obtain ⟨w, hw, hr⟩ := Option.bind_eq_some_iff.mp h
      have hval : v.val - w.val = r.val := (IntType.result_signed rfl).mp hr
      rw [← hval, value, iha hn.1 hv, ihb hn.2 hw]
  | mulScalar a b ih =>
      obtain ⟨v, hv, hr⟩ := Option.bind_eq_some_iff.mp h
      have hval : v.val * b.val = r.val := (IntType.result_signed rfl).mp hr
      rw [← hval, value, ih hn hv]
  | scalarMul b a ih =>
      obtain ⟨v, hv, hr⟩ := Option.bind_eq_some_iff.mp h
      have hval : b.val * v.val = r.val := (IntType.result_signed rfl).mp hr
      rw [← hval, value, ih hn hv]
  | divScalar a b ih =>
      obtain ⟨v, hv, hr⟩ := Option.bind_eq_some_iff.mp h
      have hval : v.val.tdiv b.val = r.val := ((Word.div_signed rfl).mp hr).2
      rw [← hval, value, ih hn hv]
  | null =>
      cases h
      rfl
  | expr n ih =>
      obtain ⟨v, hv, h⟩ := Option.bind_eq_some_iff.mp h
      cases h
      exact ih hn hv

theorem value_error (env : TimeBase) (n : Node (Word intmax)) :
    |(n.value env : ℚ) - n.ticks env| ≤ n.error env := by
  induction n with
  | time q => exact le_rfl
  | unitless x =>
      rw [value, Int.cast_mul]
      exact abs_scalar_mul_sub_le le_rfl _
  | neg a ih =>
      rw [value, Int.cast_neg]
      exact abs_neg_sub_neg_le ih
  | add a b iha ihb =>
      rw [value, Int.cast_add]
      exact abs_add_sub_add_le iha ihb
  | sub a b iha ihb =>
      rw [value, Int.cast_sub]
      exact abs_sub_sub_sub_le iha ihb
  | mulScalar a b ih =>
      rw [value, Int.cast_mul]
      exact abs_mul_sub_mul_le ih _
  | scalarMul b a ih =>
      rw [value, Int.cast_mul]
      exact abs_scalar_mul_sub_le ih _
  | divScalar a b ih => exact abs_tdiv_sub_le b.val ih
  | null => simp [value, ticks, error]
  | expr n ih => exact ih

theorem value_whole (hw : n.Whole env) : (n.value env : ℚ) = n.ticks env := by
  have hquantity : ∀ {q : ℚ}, (∃ k : ℤ, q = k) → (truncate q : ℚ) = q := fun hk =>
    sub_eq_zero.mp (abs_eq_zero.mp (dropped_eq_zero.mpr hk))
  induction n with
  | time q => exact hquantity hw
  | unitless x => rw [value, ticks, Int.cast_mul, hquantity hw]
  | neg a ih => rw [value, ticks, Int.cast_neg, ih hw]
  | add a b iha ihb => rw [value, ticks, Int.cast_add, iha hw.1, ihb hw.2]
  | sub a b iha ihb => rw [value, ticks, Int.cast_sub, iha hw.1, ihb hw.2]
  | mulScalar a b ih => rw [value, ticks, Int.cast_mul, ih hw]
  | scalarMul b a ih => rw [value, ticks, Int.cast_mul, ih hw]
  | divScalar a b ih =>
      obtain ⟨hwa, k, hk⟩ := hw
      -- the dividend is a multiple of the divisor
      have hv : a.value env = b.val * k := by exact_mod_cast (ih hwa).trans hk
      rw [value, ticks, hv, hk]
      rcases eq_or_ne b.val 0 with hb | hb
      · simp [hb]
      · have hb' : (b.val : ℚ) ≠ 0 := by exact_mod_cast hb
        rw [Int.mul_tdiv_cancel_left _ hb, mul_div_cancel_left₀ _ hb']
  | null => exact Int.cast_zero
  | expr n ih => exact ih hw

/-- A time expression that is converted without overflow is not further from the duration that it
stands for than its truncations add up to, and it is exact where nothing has to be truncated. -/
theorem conversion_error (hu : env.unit.u.Supported) (hp : env.precision.u.Supported)
    (hpos : 0 < env.precision.t.val) (hn : n.Supported) (h : n.realToSim integers env = some r) :
    |(r.val : ℚ) - n.ticks env| ≤ n.error env ∧ (n.Whole env → (r.val : ℚ) = n.ticks env) := by
  obtain ⟨v, hv, hr⟩ := Option.bind_eq_some_iff.mp h
  cases hr
  rw [count_value hu hp hpos hn hv]
  exact ⟨value_error env n, value_whole⟩

/-- `3 * 1500_us / 2`, in ticks of 1 ms. -/
def sesqui : Node (Word intmax) :=
  .divScalar (.scalarMul ⟨3, by decide⟩ (.time ⟨⟨1500, by decide⟩, .microseconds⟩)) ⟨2, by decide⟩

theorem conversion_error_sesqui :
    |((⟨1, fits_one⟩ : Word intmax).val : ℚ) - sesqui.ticks millis| ≤ sesqui.error millis := by
  have hn : sesqui.Supported := (by decide : TimeUnitType.microseconds.Supported)
  exact (conversion_error (n := sesqui) (by decide) (by decide) (by decide) hn (by decide)).1

end Node

end Cxxdes.TimeUtils
