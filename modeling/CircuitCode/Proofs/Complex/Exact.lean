import Mathlib.Algebra.Algebra.Basic
import Mathlib.Algebra.BigOperators.Group.List.Basic
import Mathlib.Algebra.Order.Field.Basic
import Mathlib.Tactic.Positivity
import CircuitCode.Connection.Evaluation

/-!
# Exact arithmetic

The laws of complex arithmetic that does not round. Division is only described where the divisor is
not zero, and of powers only those with the exponents `1`, `1/2` and `-1`. What the hyperbolic
functions use besides has laws of its own: signs and differences (`SignedArithmetic`) and the
exponential (`ExponentialLaws`).
-/

namespace CircuitCode

open ComplexArithmetic

/-- Complex numbers `C` over real numbers `R` are fields in which the operations are exact. -/
class ExactArithmetic (R : outParam Type) (C : Type) [Field R] [LinearOrder R] [Field C]
    [Algebra R C] [ComplexArithmetic R C] : Prop where
  ofNumber_finite (negative : Bool) (units : Nat) (h : Representable units) :
    ofNumber C (.finite negative units h) = (if negative then -1 else 1) * (units / 2 ^ 1074)
  realMul_eq (x y : R) : realMul C x y = x * y
  realDiv_eq (x : R) {y : R} (hy : y ≠ 0) : realDiv C x y = x / y
  realEq_iff {x y : R} : realEq C x y = true ↔ x = y
  re_ofParts (x y : R) : re (ofParts x y : C) = x
  im_ofParts (x y : R) : im (ofParts x y : C) = y
  ofParts_re_im (z : C) : ofParts (re z) (im z) = z
  ofParts_eq (x y : R) : (ofParts x y : C) = algebraMap R C x + ofParts 0 1 * algebraMap R C y
  add_eq (z w : C) : add z w = z + w
  mul_eq (z w : C) : mul z w = z * w
  div_eq (z : C) {w : C} (hw : w ≠ 0) : div z w = z / w
  inv_eq {z : C} (hz : z ≠ 0) : inv z = z⁻¹
  scale_eq (z : C) (x : R) : scale z x = z * algebraMap R C x
  addTo_eq (x : R) (z : C) : addTo x z = algebraMap R C x + z
  divInto_eq (x : R) {z : C} (hz : z ≠ 0) : divInto x z = algebraMap R C x / z
  sqrt_algebraMap {x : R} (hx : 0 ≤ x) : sqrt (algebraMap R C x) = algebraMap R C (realSqrt C x)
  powReal_one (z : C) : powReal z 1 = z
  powReal_half (z : C) : powReal z (1 / 2) = sqrt z
  powReal_neg_one (z : C) : powReal z (-1) = inv z

/-- Exact arithmetic in which the order, the negation and differences are exact as well. -/
class SignedArithmetic (R : outParam Type) (C : Type) [Field R] [LinearOrder R] [Field C]
    [Algebra R C] [ComplexArithmetic R C] : Prop extends ExactArithmetic R C where
  realLt_iff {x y : R} : realLt C x y = true ↔ x < y
  neg_eq (z : C) : neg z = -z
  subFrom_eq (x : R) (z : C) : subFrom x z = algebraMap R C x - z

/-- The exponential turns sums into products. -/
class ExponentialLaws (R : outParam Type) (C : Type) [Field C] [ComplexArithmetic R C] :
    Prop where
  exp_zero : exp (0 : C) = 1
  exp_add (z w : C) : exp (z + w) = exp z * exp w

namespace ExactArithmetic

variable {R C : Type} [Field R] [LinearOrder R] [Field C] [Algebra R C] [ComplexArithmetic R C]
  [ExactArithmetic R C]

/-- Both zeros stand for the real number zero. -/
theorem ofNumber_eq_zero {x : Number} (h : (x == 0) = true) : ofNumber C x = (0 : R) := by
  obtain ⟨hnan, -, hrank⟩ := Number.beq_iff.mp h
  rw [Number.rank_zero] at hrank
  cases x with
  | nan => cases hnan
  | infinite negative =>
    have hpos := outOfRange_pos
    cases negative <;> simp only [Number.rank] at hrank <;> omega
  | finite negative units h =>
    have : units = 0 := by
      cases negative <;> simp only [Number.rank] at hrank <;> omega
    rw [ofNumber_finite, this, Nat.cast_zero, zero_div, mul_zero]

theorem ofNumber_zero : ofNumber C 0 = (0 : R) := ofNumber_eq_zero (by decide +kernel)

theorem number_eq (x : Number) : (number x : C) = algebraMap R C (ofNumber C x) := by
  rw [number, ofReal, ofParts_eq, ofNumber_zero, map_zero, mul_zero, add_zero]

theorem ofReal_eq (x : R) : (ofReal x : C) = algebraMap R C x := by
  rw [ofReal, ofParts_eq, ofNumber_zero, map_zero, mul_zero, add_zero]

theorem zero_eq : (zero : C) = 0 := by
  rw [zero, number_eq, ofNumber_zero, map_zero]

theorem isZero_iff {z : C} : isZero z = true ↔ z = 0 := by
  rw [isZero, Bool.and_eq_true, realEq_iff, realEq_iff, ofNumber_zero]
  constructor
  · rintro ⟨hre, him⟩
    rw [← ofParts_re_im z, hre, him, ofParts_eq, map_zero, mul_zero, add_zero]
  · rintro rfl
    rw [← zero_eq, zero, number, ofReal, re_ofParts, im_ofParts, ofNumber_zero]
    exact ⟨rfl, rfl⟩

theorem ofParts_eq_zero_iff {x y : R} : (ofParts x y : C) = 0 ↔ x = 0 ∧ y = 0 := by
  rw [← isZero_iff, isZero, Bool.and_eq_true, realEq_iff, realEq_iff, re_ofParts, im_ofParts,
    ofNumber_zero]

/-- A linear function of `jω` with real coefficients, by its real and imaginary parts. -/
theorem algebraMap_add_jω_mul (x y frequency : R) :
    algebraMap R C x + jω frequency * algebraMap R C y =
      ofParts x (ofNumber C twoPi * frequency * y) := by
  rw [jω, realMul_eq, ofNumber_zero, ofParts_eq 0, ofParts_eq x, map_zero, zero_add,
    map_mul _ _ y, mul_assoc]

/-- Such a function has no zero if it has a real part. -/
theorem algebraMap_add_jω_mul_ne_zero {x : R} (hx : x ≠ 0) (y frequency : R) :
    algebraMap R C x + jω frequency * algebraMap R C y ≠ 0 := by
  rw [algebraMap_add_jω_mul, Ne, ofParts_eq_zero_iff]
  exact fun hparts => hx hparts.1

theorem sum_eq (terms : List C) : sum terms = terms.sum := by
  have h : (add : C → C → C) = (· + ·) := by
    funext z w
    exact add_eq z w
  rw [sum, h, zero_eq, List.sum_eq_foldl]

/-- A power of two, counted in units of `2^-1074`. -/
theorem ofNumber_two_pow {negative : Bool} {units shift : Nat} {h : Representable units}
    (hunits : units = 2 ^ shift) :
    ofNumber C (.finite negative units h) =
      ((if negative then -1 else 1) * (2 ^ shift / 2 ^ 1074) : R) := by
  rw [ofNumber_finite, hunits, Nat.cast_pow, Nat.cast_ofNat]

variable [IsStrictOrderedRing R]

theorem ofNumber_one : ofNumber C 1 = (1 : R) := by
  have h : (1 : Number) = .finite false (1 * 2 ^ 1074)
      (representable_shift (by decide) (by decide +kernel)) := by decide +kernel
  rw [h, ofNumber_two_pow (Nat.one_mul _), div_self (pow_ne_zero _ two_ne_zero)]
  exact one_mul 1

/-- An imaginary number, as the imaginary unit and a real factor. -/
theorem ofParts_zero (x : R) : (ofParts (ofNumber C 0) x : C) = imaginary * algebraMap R C x := by
  rw [imaginary, ofNumber_zero, ofNumber_one, ofParts_eq, map_zero, zero_add]

theorem ofNumber_neg_one : ofNumber C (-1) = (-1 : R) := by
  have h : (-1 : Number) = .finite true (1 * 2 ^ 1074)
      (representable_shift (by decide) (by decide +kernel)) := by decide +kernel
  rw [h, ofNumber_two_pow (Nat.one_mul _), div_self (pow_ne_zero _ two_ne_zero)]
  exact mul_one (-1)

theorem ofNumber_neg_two : ofNumber C (-2) = (-2 : R) := by
  have h : (-2 : Number) = .finite true (1 * 2 ^ 1075)
      (representable_shift (by decide) (by decide +kernel)) := by decide +kernel
  have hpow : (2 : R) ^ 1075 = 2 ^ 1074 * 2 := pow_succ 2 1074
  rw [h, ofNumber_two_pow (Nat.one_mul _), hpow, mul_div_cancel_left₀ _ (pow_ne_zero _ two_ne_zero)]
  exact neg_one_mul 2

theorem ofNumber_half : ofNumber C 0.5 = (1 / 2 : R) := by
  have h : (0.5 : Number) = .finite false (1 * 2 ^ 1073)
      (representable_shift (by decide) (by decide +kernel)) := by decide +kernel
  have hpow : (2 : R) ^ 1074 = 2 ^ 1073 * 2 := pow_succ 2 1073
  rw [h, ofNumber_two_pow (Nat.one_mul _), hpow, div_mul_cancel_left₀ (pow_ne_zero _ two_ne_zero),
    ← one_div]
  exact one_mul _

theorem one_eq : (one : C) = 1 := by
  rw [one, number_eq, ofNumber_one, map_one]

theorem product_eq (factors : List C) : product factors = factors.prod := by
  have h : (mul : C → C → C) = (· * ·) := by
    funext z w
    exact mul_eq z w
  rw [product, h, one_eq, List.prod_eq_foldl]

/-- A power with a real exponent is the one that formulas use. The three exponents that are
    treated on their own make no difference. -/
theorem power_number (z : C) (x : Number) :
    power z (number x) = powReal z (ofNumber C x) := by
  have hre : re (number x : C) = ofNumber C x := re_ofParts _ _
  have him : im (number x : C) = ofNumber C 0 := im_ofParts _ _
  have hreal : realEq C (ofNumber C 0) (ofNumber C 0) = true := realEq_iff.mpr rfl
  rw [power, hre, him, hreal, Bool.not_true, if_neg Bool.false_ne_true]
  by_cases hinv : realEq C (ofNumber C x) (ofNumber C (-1)) = true
  · rw [if_pos hinv, realEq_iff.mp hinv, ofNumber_neg_one, powReal_neg_one]
  rw [if_neg hinv]
  by_cases hsqrt : realEq C (ofNumber C x) (ofNumber C 0.5) = true
  · rw [if_pos hsqrt, realEq_iff.mp hsqrt, ofNumber_half, powReal_half]
  rw [if_neg hsqrt]
  by_cases hbase : realEq C (ofNumber C x) (ofNumber C 1) = true
  · rw [if_pos hbase, realEq_iff.mp hbase, ofNumber_one, powReal_one]
  · rw [if_neg hbase]

/-- A finite positive number stands for a positive real number. -/
theorem ofNumber_pos {x : Number} (hx : 0 < x) (hfinite : x < .infinity) :
    (0 : R) < ofNumber C x := by
  obtain ⟨-, hnan, hrank⟩ := Number.lt_iff.mp hx
  obtain ⟨-, -, hbelow⟩ := Number.lt_iff.mp hfinite
  rw [Number.rank_zero] at hrank
  cases x with
  | nan => cases hnan
  | infinite negative =>
    cases negative with
    | false => exact absurd hbelow (lt_irrefl _)
    | true =>
      simp only [Number.rank, if_true] at hrank
      omega
  | finite negative units h =>
    cases negative with
    | false =>
      have : 0 < units := by simpa [Number.rank] using hrank
      rw [ofNumber_finite, if_neg Bool.false_ne_true, one_mul]
      positivity
    | true =>
      simp only [Number.rank, if_true] at hrank
      omega

theorem twoPi_pos : (0 : R) < ofNumber C twoPi :=
  ofNumber_pos (by decide +kernel) (by decide +kernel)

theorem jω_ne_zero {frequency : R} (h : frequency ≠ 0) : (jω frequency : C) ≠ 0 := by
  rw [jω, realMul_eq, Ne, ofParts_eq_zero_iff]
  exact fun hparts => mul_ne_zero (twoPi_pos (C := C)).ne' h hparts.2

theorem jω_mul_ne_zero {frequency x : R} (hfrequency : frequency ≠ 0) (hx : x ≠ 0) :
    jω frequency * algebraMap R C x ≠ 0 :=
  mul_ne_zero (jω_ne_zero hfrequency) ((map_ne_zero _).mpr hx)

theorem ofNumber_nonneg {x : Number} (hx : 0 ≤ x) (hfinite : x < .infinity) :
    (0 : R) ≤ ofNumber C x := by
  by_cases hpos : 0 < x
  · exact (ofNumber_pos hpos hfinite).le
  · obtain ⟨hzero, hnan, hrank⟩ := Number.le_iff.mp hx
    have : ¬ (0 : Number).rank < x.rank := fun h => hpos ⟨hzero, hnan, h⟩
    exact (ofNumber_eq_zero (Number.beq_iff.mpr ⟨hnan, hzero, by omega⟩)).ge

end ExactArithmetic

end CircuitCode
