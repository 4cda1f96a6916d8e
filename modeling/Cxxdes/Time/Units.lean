-- SUMMARY: Time quantities, unitless quantities and their conversion to ticks; when the conversion is exact.
import Cxxdes.Core.Token
import Cxxdes.Logic.Rounding

/-!
# Time quantities

`time::count` converts a quantity to ticks of a precision, and `unitless_time::count` converts
model units. What a quantity stands for is the fraction `Time.ticks`; the integer that the
conversions should give is that fraction rounded toward zero.
-/

namespace Cxxdes.TimeUtils

open MachineInt Rounding

/-- `time_unit_type`. Its values are those of an `int`: `beyond n` is `n` after `count`. -/
inductive TimeUnitType where
  | seconds
  | milliseconds
  | microseconds
  | nanoseconds
  | picoseconds
  | count
  | beyond (n : Nat)
deriving DecidableEq

namespace TimeUnitType

/-- `(int) u`. -/
def index : TimeUnitType → Nat
  | seconds => 0
  | milliseconds => 1
  | microseconds => 2
  | nanoseconds => 3
  | picoseconds => 4
  | count => 5
  | beyond n => n + 6

/-- `(time_unit_type) n`. -/
def ofIndex : Nat → TimeUnitType
  | 0 => seconds
  | 1 => milliseconds
  | 2 => microseconds
  | 3 => nanoseconds
  | 4 => picoseconds
  | 5 => count
  | n + 6 => beyond n

@[simp] theorem index_ofIndex (n : Nat) : (ofIndex n).index = n := by
  unfold ofIndex
  split <;> rfl

/-- A physical unit. -/
def Supported (u : TimeUnitType) : Prop := u.index < count.index

instance (u : TimeUnitType) : Decidable u.Supported :=
  inferInstanceAs (Decidable (_ < _))

end TimeUnitType

/-- `std::intmax_t`, which is also `time_integral`. -/
def intmax : IntType := timeIntegral

/-- `time<Integer>`. -/
structure Time (I : IntType) where
  t : Word I
  u : TimeUnitType
deriving DecidableEq

/-- `unitless_time<Integer>`. -/
structure UnitlessTime (I : IntType) where
  t : Word I
deriving DecidableEq

/-! ### Conversion to ticks -/

/-- The table `conv` of `time::count`. -/
def conv : List (Word intmax) :=
  [⟨1, by decide⟩, ⟨1000, by decide⟩, ⟨1000000, by decide⟩, ⟨1000000000, by decide⟩,
    ⟨1000000000000, by decide⟩]

/-- `time::count`. -/
def Time.count (q precision : Time intmax) : Option (Word intmax) :=
  if q.u.index < precision.u.index then do
    let c ← conv[precision.u.index - q.u.index]?
    let x ← c.mul q.t
    x.div precision.t
  else do
    let x ← q.t.div precision.t
    let c ← conv[q.u.index - precision.u.index]?
    x.div c

/-- `unitless_time::count`. -/
def UnitlessTime.count {I : IntType} (x : UnitlessTime I) (precision unit : Time intmax) :
    Option (Word (I.common intmax)) := do
  let c ← unit.count precision
  (x.t.convert _).mul (c.convert _)

/-- How many ticks of `precision` the quantity is. -/
def Time.ticks (q precision : Time intmax) : ℚ :=
  q.t.val * 1000 ^ ((precision.u.index : ℤ) - q.u.index) / precision.t.val

/-! ### Exactness -/

theorem conv_get {k : Nat} (hk : k < 5) : ∃ c, conv[k]? = some c ∧ c.val = 1000 ^ k := by
  match k, hk with
  | 0, _ => exact ⟨_, rfl, rfl⟩
  | 1, _ => exact ⟨_, rfl, rfl⟩
  | 2, _ => exact ⟨_, rfl, rfl⟩
  | 3, _ => exact ⟨_, rfl, rfl⟩
  | 4, _ => exact ⟨_, rfl, rfl⟩

namespace Time

variable {q precision : Time intmax}

theorem ticks_finer (h : q.u.index < precision.u.index) :
    q.ticks precision =
      ((q.t.val * 1000 ^ (precision.u.index - q.u.index) : ℤ) : ℚ) / precision.t.val := by
  have hk : (precision.u.index : ℤ) - q.u.index =
      ((precision.u.index - q.u.index : Nat) : ℤ) := by omega
  unfold ticks
  rw [hk, zpow_natCast]
  push_cast
  rfl

theorem ticks_coarser (h : ¬ q.u.index < precision.u.index) :
    q.ticks precision =
      (q.t.val : ℚ) / (precision.t.val * (1000 ^ (q.u.index - precision.u.index) : ℤ)) := by
  have hk : (precision.u.index : ℤ) - q.u.index =
      -((q.u.index - precision.u.index : Nat) : ℤ) := by omega
  unfold ticks
  rw [hk, zpow_neg, zpow_natCast]
  push_cast
  field_simp

/-- The branch that multiplies first. -/
theorem count_finer (h : q.u.index < precision.u.index) (hp : precision.u.Supported)
    (hpos : 0 < precision.t.val) :
    q.count precision =
      if hf : intmax.Fits (q.t.val * 1000 ^ (precision.u.index - q.u.index)) then
        some ⟨_, hf.tdiv hpos⟩
      else none := by
  obtain ⟨c, hc, hval⟩ :=
    conv_get (k := precision.u.index - q.u.index) (Nat.lt_of_le_of_lt (Nat.sub_le _ _) hp)
  have hmul : c.mul q.t = intmax.result (q.t.val * 1000 ^ (precision.u.index - q.u.index)) := by
    rw [Word.mul, hval, Int.mul_comm]
  simp only [count, if_pos h, hc, hmul, Option.bind_eq_bind, Option.bind_some]
  split
  · next hf =>
      rw [IntType.result_of_fits hf, Option.bind_some]
      exact Word.div_pos _ hpos
  · next hf =>
      have hs : intmax.signed = true := rfl
      simp [IntType.result, hf, hs]

/-- The branch that only divides. -/
theorem count_coarser (h : ¬ q.u.index < precision.u.index) (hq : q.u.Supported)
    (hpos : 0 < precision.t.val) :
    ∃ r, q.count precision = some r ∧
      r.val = (q.t.val.tdiv precision.t.val).tdiv (1000 ^ (q.u.index - precision.u.index)) := by
  obtain ⟨c, hc, hval⟩ :=
    conv_get (k := q.u.index - precision.u.index) (Nat.lt_of_le_of_lt (Nat.sub_le _ _) hq)
  have hcpos : 0 < c.val := by
    rw [hval]
    exact Int.pow_pos (by decide)
  simp only [count, if_neg h, hc, Word.div_pos q.t hpos, Option.bind_eq_bind, Option.bind_some]
  exact ⟨_, Word.div_pos _ hcpos, congrArg (Int.tdiv _) hval⟩

/-- `time::count` gives the exact number of ticks rounded toward zero, or overflows: it does where
it multiplies before it divides and the product does not fit. -/
theorem count_eq_some (hq : q.u.Supported) (hp : precision.u.Supported)
    (hpos : 0 < precision.t.val) {r : Word intmax} :
    q.count precision = some r ↔ r.val = truncate (q.ticks precision) ∧
      (q.u.index < precision.u.index →
        intmax.Fits (q.t.val * 1000 ^ (precision.u.index - q.u.index))) := by
  cases Nat.decLt q.u.index precision.u.index with
  | isTrue h =>
      rw [count_finer h hp hpos, ticks_finer h, truncate_div _ hpos]
      split
      · next hf =>
          rw [Option.some.injEq, Word.mk.injEq]
          exact ⟨fun hr => ⟨hr.symm, fun _ => hf⟩, fun hr => hr.1.symm⟩
      · next hf =>
          constructor
          · intro hr
            cases hr
          · intro hr
            exact absurd (hr.2 h) hf
  | isFalse h =>
      obtain ⟨r', hr', hval⟩ := count_coarser h hq hpos
      have hpow : (0 : ℤ) < 1000 ^ (q.u.index - precision.u.index) := Int.pow_pos (by decide)
      rw [ticks_coarser h, truncate_div_mul _ hpos hpow, hr', Option.some.injEq, ← hval,
        Word.eq_iff, eq_comm]
      exact (and_iff_left fun hlt => absurd hlt h).symm

/-- Where the exact number of ticks rounded toward zero fits, `time::count` returns it if and only
if the unit is not coarser than that of the precision or the product fits too. -/
theorem count_exact (hq : q.u.Supported) (hp : precision.u.Supported)
    (hpos : 0 < precision.t.val) (hfit : intmax.Fits (truncate (q.ticks precision))) :
    q.count precision = some ⟨_, hfit⟩ ↔
      (q.u.index < precision.u.index →
        intmax.Fits (q.t.val * 1000 ^ (precision.u.index - q.u.index))) := by
  rw [count_eq_some hq hp hpos]
  exact and_iff_right rfl

theorem count_exact_ms :
    ∃ h, (⟨⟨-25, by decide⟩, .milliseconds⟩ : Time intmax).count ⟨⟨10, by decide⟩, .microseconds⟩ =
      some ⟨truncate ((⟨⟨-25, by decide⟩, .milliseconds⟩ : Time intmax).ticks
        ⟨⟨10, by decide⟩, .microseconds⟩), h⟩ :=
  ⟨by decide +kernel, (count_exact (by decide) (by decide) (by decide) _).mpr (by decide)⟩

/-- Ten million seconds are 10^16 ticks of 1000 ps, but the product is 10^19. -/
theorem count_overflows :
    ¬ ∀ (q precision : Time intmax) (hfit : intmax.Fits (truncate (q.ticks precision))),
      q.u.Supported → precision.u.Supported → 0 < precision.t.val →
        q.count precision = some ⟨_, hfit⟩ := by
  intro h
  have hticks : truncate ((⟨⟨10000000, by decide⟩, .seconds⟩ : Time intmax).ticks
      ⟨⟨1000, by decide⟩, .picoseconds⟩) = 10 ^ 16 := by decide +kernel
  have h1 := h ⟨⟨10000000, by decide⟩, .seconds⟩ ⟨⟨1000, by decide⟩, .picoseconds⟩
    (by rw [hticks]; decide) (by decide) (by decide) (by decide)
  have hnone : (⟨⟨10000000, by decide⟩, .seconds⟩ : Time intmax).count
      ⟨⟨1000, by decide⟩, .picoseconds⟩ = none := by decide
  rw [hnone] at h1
  cases h1

end Time

/-! ### Model units -/

/-- `environment::time_unit()` and `environment::time_precision()`. -/
structure TimeBase where
  unit : Time intmax
  precision : Time intmax

namespace TimeBase

/-- `environment::real_to_sim` of a time quantity. -/
def realToSim (env : TimeBase) (q : Time intmax) : Option (Word intmax) :=
  q.count env.precision

/-- `environment::real_to_sim` of a unitless quantity or of a scalar. -/
def unitlessToSim {I : IntType} (env : TimeBase) (n : UnitlessTime I) : Option (Word intmax) :=
  (n.count env.precision env.unit).map fun x => x.convert intmax

/-- The conversion of model units multiplies their number and the ticks of one. -/
theorem unitlessToSim_iff {I : IntType} {env : TimeBase} {n : UnitlessTime I} {y : Word intmax} :
    env.unitlessToSim n = some y ↔ ∃ c, env.unit.count env.precision = some c ∧
      ((I.common intmax).signed = true → (I.common intmax).Fits (n.t.val * c.val)) ∧
      y.val = intmax.wrap (n.t.val * c.val) := by
  unfold unitlessToSim UnitlessTime.count
  cases hc : env.unit.count env.precision with
  | none => simp
  | some c =>
      simp only [Option.bind_eq_bind, Option.bind_some, Option.some.injEq, exists_eq_left']
      obtain ⟨hI, hm⟩ := I.bits_common intmax
      cases hs : (I.common intmax).signed with
      | false =>
          simp only [Word.mul, IntType.result_unsigned hs, Option.map_some, Option.some.injEq,
            Word.eq_iff, Word.convert, IntType.wrap_wrap_mul (IntType.width_common hs)]
          simp only [Bool.false_eq_true, false_implies, true_and]
          exact eq_comm
      | true =>
          have hn : (I.common intmax).Fits n.t.val := n.t.fits.widen hI (.inr hs)
          have hcf : (I.common intmax).Fits c.val := c.fits.widen hm (.inr hs)
          simp only [Word.mul, Word.convert_val hn, Word.convert_val hcf, true_implies]
          constructor
          · intro h
            obtain ⟨x, hx, rfl⟩ := Option.map_eq_some_iff.mp h
            have hval := (IntType.result_signed hs).mp hx
            rw [hval]
            exact ⟨x.fits, rfl⟩
          · rintro ⟨hf, hy⟩
            rw [IntType.result_of_fits hf, Option.map_some, Option.some.injEq, Word.eq_iff, hy]
            rfl

/-- Without overflow, the conversion gives the product. -/
theorem unitlessToSim_eq {I : IntType} {env : TimeBase} {n : UnitlessTime I} {c : Word intmax}
    (hc : env.unit.count env.precision = some c) (hf : intmax.Fits (n.t.val * c.val)) :
    env.unitlessToSim n = some ⟨_, hf⟩ :=
  unitlessToSim_iff.mpr ⟨c, hc, fun hs => hf.widen (I.bits_common intmax).2 (.inr hs),
    (IntType.wrap_of_fits hf).symm⟩

/-- Model units are converted as the physical time they stand for if and only if the fractions
of a tick that one unit leaves add up to less than a tick. -/
theorem unitlessToSim_eq_realToSim {I : IntType} (env : TimeBase) (n : UnitlessTime I)
    (hu : env.unit.u.Supported) (hp : env.precision.u.Supported) (ha : 0 < env.unit.t.val)
    (hpos : 0 < env.precision.t.val) {c r : Word intmax}
    (hna : intmax.Fits (n.t.val * env.unit.t.val))
    (hc : env.unit.count env.precision = some c)
    (hr : env.realToSim ⟨⟨_, hna⟩, env.unit.u⟩ = some r) :
    env.unitlessToSim n = some r ↔
      |(n.t.val : ℚ)| * Int.fract (env.unit.ticks env.precision) < 1 := by
  obtain ⟨hcv, -⟩ := (Time.count_eq_some hu hp hpos).mp hc
  obtain ⟨hrv, -⟩ := (Time.count_eq_some (q := ⟨⟨_, hna⟩, env.unit.u⟩) hu hp hpos).mp hr
  have hmul : (⟨⟨_, hna⟩, env.unit.u⟩ : Time intmax).ticks env.precision =
      n.t.val * env.unit.ticks env.precision := by
    unfold Time.ticks
    rw [Int.cast_mul, mul_assoc, mul_div_assoc]
  have hq : 0 ≤ env.unit.ticks env.precision := by
    have h1 : (0 : ℚ) ≤ env.unit.t.val := by exact_mod_cast ha.le
    have h2 : (0 : ℚ) ≤ env.precision.t.val := by exact_mod_cast hpos.le
    exact div_nonneg (mul_nonneg h1 (zpow_nonneg (by norm_num) _)) h2
  rw [hmul] at hrv
  -- the product of the truncated ticks fits because the truncated product does
  have hf : intmax.Fits (n.t.val * c.val) := by
    obtain ⟨h1, h2⟩ := mul_truncate_le n.t.val hq
    rw [← hcv, ← hrv] at h1 h2
    cases Int.le_total 0 n.t.val with
    | inl hn => exact (IntType.fits_zero intmax).between r.fits (h1 hn).1 (h1 hn).2
    | inr hn => exact r.fits.between (IntType.fits_zero intmax) (h2 hn).1 (h2 hn).2
  rw [unitlessToSim_eq hc hf, ← truncate_mul_eq _ hq, ← hcv, ← hrv, Option.some.injEq,
    Word.eq_iff]
  exact eq_comm

/-- Units of 1 ms with ticks of `p` us. -/
def ofTicks (p : Word intmax) : TimeBase :=
  ⟨⟨⟨1, by decide⟩, .milliseconds⟩, ⟨p, .microseconds⟩⟩

theorem unitlessToSim_eq_realToSim_ms :
    (ofTicks ⟨300, by decide⟩).unitlessToSim (⟨⟨2, by decide⟩⟩ : UnitlessTime intmax) =
      some ⟨6, by decide⟩ :=
  (unitlessToSim_eq_realToSim (ofTicks ⟨300, by decide⟩) ⟨⟨2, by decide⟩⟩ (c := ⟨3, by decide⟩)
    (by decide) (by decide) (by decide) (by decide) (by decide) (by decide) (by decide)).mpr
    (by decide +kernel)

/-- Three units of 1 ms are one tick of 3 ms, and three times no tick. -/
theorem unitlessToSim_truncates :
    ¬ ∀ (I : IntType) (env : TimeBase) (n : UnitlessTime I) (c r : Word intmax)
      (hna : intmax.Fits (n.t.val * env.unit.t.val)),
      env.unit.u.Supported → env.precision.u.Supported → 0 < env.unit.t.val →
      0 < env.precision.t.val → env.unit.count env.precision = some c →
      env.realToSim ⟨⟨_, hna⟩, env.unit.u⟩ = some r → env.unitlessToSim n = some r := by
  intro h
  have h1 := h intmax (ofTicks ⟨3000, by decide⟩) ⟨⟨3, by decide⟩⟩ ⟨0, by decide⟩ ⟨1, by decide⟩
    (by decide) (by decide) (by decide) (by decide) (by decide) (by decide) (by decide)
  exact absurd h1 (by decide)

end TimeBase

end Cxxdes.TimeUtils
