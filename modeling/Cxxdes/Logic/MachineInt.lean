-- SUMMARY: Integers of a fixed width: their types and values, overflow, conversions, and the common type of two operands.
import Mathlib.Algebra.Order.Ring.Int
import Mathlib.Data.Int.DivMod

/-!
# Machine integers

An `IntType` is a number of bits with or without a sign; a `Word I` is an integer that fits.
An operation is computed exactly first. `result` then says what is left of it: the value if it
fits, its remainder if the type has no sign, and nothing, that is undefined behaviour, if it has
one. Conversions always wrap.
-/

namespace MachineInt

structure IntType where
  signed : Bool
  width : Nat
  pos : 0 < width
deriving DecidableEq

namespace IntType

variable {I J : IntType} {x y : Int}

/-- How many values there are. -/
def card (I : IntType) : Int := ((2 ^ I.width : Nat) : Int)

def min (I : IntType) : Int := if I.signed then -((2 ^ (I.width - 1) : Nat) : Int) else 0

def max (I : IntType) : Int :=
  if I.signed then ((2 ^ (I.width - 1) : Nat) : Int) - 1 else ((2 ^ I.width : Nat) : Int) - 1

/-- `x` is a value of the type. -/
def Fits (I : IntType) (x : Int) : Prop := I.min ≤ x ∧ x ≤ I.max

instance (I : IntType) (x : Int) : Decidable (I.Fits x) :=
  inferInstanceAs (Decidable (_ ∧ _))

theorem card_pos (I : IntType) : 0 < I.card := by
  have h : 0 < 2 ^ I.width := Nat.two_pow_pos _
  unfold card
  omega

theorem max_eq (I : IntType) : I.max = I.min + I.card - 1 := by
  have hw : 2 ^ I.width = 2 * 2 ^ (I.width - 1) := by
    rw [← Nat.pow_succ']
    congr 1
    exact (Nat.succ_pred_eq_of_pos I.pos).symm
  unfold max min card
  cases I.signed with
  | false => simp
  | true =>
      simp only [if_true]
      omega

theorem min_nonpos (I : IntType) : I.min ≤ 0 := by
  have h : 0 < 2 ^ (I.width - 1) := Nat.two_pow_pos _
  unfold min
  split <;> omega

theorem max_nonneg (I : IntType) : 0 ≤ I.max := by
  have h1 : 0 < 2 ^ I.width := Nat.two_pow_pos _
  have h2 : 0 < 2 ^ (I.width - 1) := Nat.two_pow_pos _
  unfold max
  split <;> omega

theorem fits_zero (I : IntType) : I.Fits 0 := ⟨I.min_nonpos, I.max_nonneg⟩

theorem min_unsigned (h : I.signed = false) : I.min = 0 := by
  simp [min, h]

/-- The values of a type have no gaps. -/
theorem Fits.between {z : Int} (hx : I.Fits x) (hz : I.Fits z) (hxy : x ≤ y) (hyz : y ≤ z) :
    I.Fits y :=
  ⟨Int.le_trans hx.1 hxy, Int.le_trans hyz hz.2⟩

/-- What is nearer to 0 than a value is one too. -/
theorem Fits.toward_zero (hx : I.Fits x) (hpos : 0 ≤ x → 0 ≤ y ∧ y ≤ x)
    (hneg : x ≤ 0 → x ≤ y ∧ y ≤ 0) : I.Fits y := by
  cases Int.le_total 0 x with
  | inl h => exact (fits_zero I).between hx (hpos h).1 (hpos h).2
  | inr h => exact hx.between (fits_zero I) (hneg h).1 (hneg h).2

theorem Fits.tdiv (hx : I.Fits x) {d : Int} (hd : 0 < d) : I.Fits (x.tdiv d) := by
  apply hx.toward_zero
  · intro h
    rw [Int.tdiv_eq_ediv_of_nonneg h]
    exact ⟨Int.ediv_nonneg h (Int.le_of_lt hd), Int.ediv_le_self d h⟩
  · intro h
    have hneg : x.tdiv d = -((-x) / d) := by
      rw [← Int.tdiv_eq_ediv_of_nonneg (by omega), Int.neg_tdiv, Int.neg_neg]
    have h1 : 0 ≤ (-x) / d := Int.ediv_nonneg (by omega) (Int.le_of_lt hd)
    have h2 : (-x) / d ≤ -x := Int.ediv_le_self d (by omega)
    omega

/-! ### Conversions -/

/-- `x` modulo the number of values. -/
def wrap (I : IntType) (x : Int) : Int := (x - I.min) % I.card + I.min

theorem wrap_fits (I : IntType) (x : Int) : I.Fits (I.wrap x) := by
  have h1 := Int.emod_nonneg (x - I.min) (Int.ne_of_gt I.card_pos)
  have h2 := Int.emod_lt_of_pos (x - I.min) I.card_pos
  have h3 := I.max_eq
  unfold Fits wrap
  omega

theorem wrap_of_fits (h : I.Fits x) : I.wrap x = x := by
  have h1 := I.max_eq
  have h2 : (x - I.min) % I.card = x - I.min := by
    apply Int.emod_eq_of_lt
    · exact Int.sub_nonneg.mpr h.1
    · have h3 := h.2
      omega
  unfold wrap
  omega

theorem Fits.of_mul {d : Int} (h : I.Fits (x * d)) (hd : 0 < d) : I.Fits x := by
  have h1 := h.tdiv hd
  rwa [Int.mul_tdiv_cancel x (Int.ne_of_gt hd)] at h1

theorem dvd_wrap_sub (I : IntType) (x : Int) : I.card ∣ I.wrap x - x := by
  refine ⟨-((x - I.min) / I.card), ?_⟩
  have h := Int.emod_add_mul_ediv (x - I.min) I.card
  unfold wrap
  rw [Int.mul_neg]
  omega

theorem wrap_congr (h : I.card ∣ x - y) : I.wrap x = I.wrap y := by
  have h1 : (x - I.min) % I.card = (y - I.min) % I.card := by
    apply Int.emod_eq_emod_iff_emod_sub_eq_zero.mpr
    apply Int.emod_eq_zero_of_dvd
    have heq : x - I.min - (y - I.min) = x - y := by omega
    rwa [heq]
  unfold wrap
  rw [h1]

theorem card_dvd (h : I.width ≤ J.width) : I.card ∣ J.card :=
  Int.natCast_dvd_natCast.mpr (Nat.pow_dvd_pow 2 h)

/-- Wrapping in a wider type in between makes no difference to a product. -/
theorem wrap_wrap_mul (h : I.width ≤ J.width) (x y : Int) :
    I.wrap (J.wrap (J.wrap x * J.wrap y)) = I.wrap (x * y) := by
  apply wrap_congr
  apply Int.dvd_trans (card_dvd h)
  have hsplit : J.wrap (J.wrap x * J.wrap y) - x * y =
      (J.wrap (J.wrap x * J.wrap y) - J.wrap x * J.wrap y) +
        (J.wrap x * (J.wrap y - y) + (J.wrap x - x) * y) := by
    rw [Int.mul_sub, Int.sub_mul]
    omega
  rw [hsplit]
  apply Int.dvd_add (J.dvd_wrap_sub _)
  exact Int.dvd_add (Int.dvd_mul_of_dvd_right (J.dvd_wrap_sub y))
    (Int.dvd_mul_of_dvd_left (J.dvd_wrap_sub x))

/-- A negative number comes out at the upper end of a type without a sign. -/
theorem wrap_neg (hs : I.signed = false) (hx : x < 0) (hc : -I.card ≤ x) :
    I.wrap x = x + I.card := by
  have hmod : x % I.card = x + I.card := by
    rw [← Int.add_emod_right]
    apply Int.emod_eq_of_lt <;> omega
  unfold wrap
  rw [min_unsigned hs, Int.sub_zero, Int.add_zero, hmod]

theorem card_mono (h : I.width ≤ J.width) : I.card ≤ J.card := by
  have h1 : 2 ^ I.width ≤ 2 ^ J.width := Nat.pow_le_pow_right (by decide) h
  unfold card
  omega

/-! ### The usual arithmetic conversions -/

/-- `int`. -/
def int : IntType := ⟨true, 32, by decide⟩

/-- The integral promotions. -/
def promote (I : IntType) : IntType := if I.width < int.width then int else I

/-- The common type of two promoted operands. -/
def join (I J : IntType) : IntType :=
  if I.signed = J.signed then (if I.width < J.width then J else I)
  else if I.signed then (if I.width ≤ J.width then J else I)
  else if J.width ≤ I.width then I else J

/-- The usual arithmetic conversions. -/
def common (I J : IntType) : IntType := join I.promote J.promote

/-- The bits without that of the sign. -/
def bits (I : IntType) : Nat := if I.signed then I.width - 1 else I.width

theorem max_bits (I : IntType) : I.max = ((2 ^ I.bits : Nat) : Int) - 1 := by
  unfold max bits
  split <;> rfl

theorem max_le (h : I.bits ≤ J.bits) : I.max ≤ J.max := by
  have h1 : 2 ^ I.bits ≤ 2 ^ J.bits := Nat.pow_le_pow_right (by decide) h
  rw [max_bits, max_bits]
  omega

/-- A signed type is as low as every other one with no more bits. -/
theorem min_le (hs : J.signed = true) (h : I.bits ≤ J.bits) : J.min ≤ I.min := by
  have hJ : J.min = -(J.max + 1) := by
    simp only [min, max, hs, if_true]
    omega
  have hI : -(I.max + 1) ≤ I.min := by
    have hpos : 0 < 2 ^ I.width := Nat.two_pow_pos _
    unfold min max
    split <;> omega
  have hm := max_le h
  omega

theorem bits_promote (I : IntType) : I.bits ≤ I.promote.bits := by
  unfold promote
  split
  · next h =>
      have hb : I.bits ≤ I.width := by
        unfold bits
        split <;> omega
      have h31 : int.bits = 31 := rfl
      have h32 : int.width = 32 := rfl
      omega
  · exact Nat.le_refl _

theorem bits_join (I J : IntType) : I.bits ≤ (join I J).bits ∧ J.bits ≤ (join I J).bits := by
  have hI := I.pos
  have hJ := J.pos
  unfold join
  cases hi : I.signed <;> cases hj : J.signed <;>
    simp only [reduceCtorEq, Bool.false_eq_true, if_true, if_false] <;>
    split <;> simp only [bits, hi, hj, Bool.false_eq_true, if_true, if_false] <;> omega

theorem bits_common (I J : IntType) :
    I.bits ≤ (common I J).bits ∧ J.bits ≤ (common I J).bits :=
  ⟨(bits_promote I).trans (bits_join _ _).1, (bits_promote J).trans (bits_join _ _).2⟩

/-- A common type without a sign is as wide as each operand. -/
theorem width_join (h : (join I J).signed = false) : J.width ≤ (join I J).width := by
  revert h
  unfold join
  cases hi : I.signed <;> cases hj : J.signed <;>
    simp only [reduceCtorEq, Bool.false_eq_true, if_true, if_false] <;> split <;> intro h <;> omega

theorem width_common (h : (common I J).signed = false) : J.width ≤ (common I J).width := by
  refine Nat.le_trans ?_ (width_join h)
  unfold promote
  split
  · next hlt => exact Nat.le_of_lt hlt
  · exact Nat.le_refl _

theorem signed_common (hI : I.signed = true) (hJ : J.signed = true) :
    (common I J).signed = true := by
  have hp : ∀ K : IntType, K.signed = true → K.promote.signed = true := by
    intro K hK
    unfold promote
    split
    · rfl
    · exact hK
  unfold common join
  rw [hp I hI, hp J hJ, if_pos rfl]
  split
  · exact hp J hJ
  · exact hp I hI

/-- A type with more bits has the same values, but the negative ones only if it has a sign. -/
theorem Fits.widen (h : I.Fits x) (hb : I.bits ≤ J.bits) (hs : 0 ≤ x ∨ J.signed = true) :
    J.Fits x := by
  refine ⟨?_, Int.le_trans h.2 (max_le hb)⟩
  cases hs with
  | inl hx => exact Int.le_trans J.min_nonpos hx
  | inr hs => exact Int.le_trans (min_le hs hb) h.1

end IntType

/-! ### Values -/

structure Word (I : IntType) where
  val : Int
  fits : I.Fits val
deriving DecidableEq

namespace Word

variable {I : IntType}

theorem eq_iff {a b : Word I} : a = b ↔ a.val = b.val := by
  cases a
  cases b
  exact Word.mk.injEq .. ▸ Iff.rfl

def convert (a : Word I) (J : IntType) : Word J := ⟨J.wrap a.val, J.wrap_fits a.val⟩

theorem convert_val {J : IntType} {a : Word I} (h : J.Fits a.val) : (a.convert J).val = a.val :=
  IntType.wrap_of_fits h

end Word

/-- The result of an operation whose exact result is `x`. -/
def IntType.result (I : IntType) (x : Int) : Option (Word I) :=
  if h : I.Fits x then some ⟨x, h⟩
  else if I.signed then none
  else some ⟨I.wrap x, I.wrap_fits x⟩

namespace IntType

variable {I : IntType} {x : Int}

theorem result_of_fits (h : I.Fits x) : I.result x = some ⟨x, h⟩ := by
  simp [result, h]

theorem result_val {v : Word I} (h : I.result x = some v) (hx : I.Fits x) : v.val = x := by
  rw [result_of_fits hx] at h
  exact congrArg Word.val (Option.some.inj h).symm

/-- Operations of a type without a sign wrap. -/
theorem result_unsigned (hs : I.signed = false) : I.result x = some ⟨I.wrap x, I.wrap_fits x⟩ := by
  unfold result
  split
  · next h => simp only [wrap_of_fits h]
  · rw [hs, if_neg Bool.false_ne_true]

/-- Operations of a signed type are exact or undefined. -/
theorem result_signed (hs : I.signed = true) {v : Word I} :
    I.result x = some v ↔ x = v.val := by
  constructor
  · intro h
    by_cases hx : I.Fits x
    · exact (result_val h hx).symm
    · simp [result, hx, hs] at h
  · rintro rfl
    rw [result_of_fits v.fits]

end IntType

namespace Word

variable {I : IntType}

def neg (a : Word I) : Option (Word I) := I.result (-a.val)

def add (a b : Word I) : Option (Word I) := I.result (a.val + b.val)

def sub (a b : Word I) : Option (Word I) := I.result (a.val - b.val)

def mul (a b : Word I) : Option (Word I) := I.result (a.val * b.val)

/-- Division rounds toward zero, and is undefined for a divisor 0. -/
def div (a b : Word I) : Option (Word I) :=
  if b.val = 0 then none else I.result (a.val.tdiv b.val)

theorem div_pos (a : Word I) {b : Word I} (hb : 0 < b.val) :
    a.div b = some ⟨a.val.tdiv b.val, a.fits.tdiv hb⟩ := by
  unfold div
  rw [if_neg (Int.ne_of_gt hb)]
  exact IntType.result_of_fits (a.fits.tdiv hb)

theorem div_signed (hs : I.signed = true) {a b v : Word I} :
    a.div b = some v ↔ b.val ≠ 0 ∧ a.val.tdiv b.val = v.val := by
  unfold div
  split
  · next hb => simp [hb]
  · next hb =>
      rw [IntType.result_signed hs]
      exact (and_iff_right hb).symm

end Word

end MachineInt
