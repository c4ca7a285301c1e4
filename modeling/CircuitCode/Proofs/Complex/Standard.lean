import Mathlib
import CircuitCode.Proofs.Complex.Exact

/-!
# The complex numbers as exact arithmetic

The field of complex numbers, with principal roots and powers.
-/

namespace CircuitCode

/-- The real number that a finite number stands for. The other numbers have no value; zero takes
    its place. -/
noncomputable def Number.toReal : Number → ℝ
  | nan _ => 0
  | infinite _ => 0
  | finite negative units _ => (if negative then -1 else 1) * (units / 2 ^ 1074)

open Classical in
noncomputable instance : ComplexArithmetic ℝ ℂ where
  ofNumber := Number.toReal
  realMul x y := x * y
  realDiv x y := x / y
  realSqrt x := √x
  realEq x y := decide (x = y)
  realLt x y := decide (x < y)
  ofParts x y := ⟨x, y⟩
  re z := z.re
  im z := z.im
  add z w := z + w
  mul z w := z * w
  div z w := z / w
  neg z := -z
  inv z := z⁻¹
  scale z x := z * x
  addTo x z := x + z
  subFrom x z := x - z
  divInto x z := x / z
  sqrt z := z ^ (1 / 2 : ℂ)
  exp z := Complex.exp z
  powReal z x := z ^ (x : ℂ)
  pow z w := z ^ w

open ComplexArithmetic

instance : ExactArithmetic ℝ ℂ where
  ofNumber_finite _ _ _ := rfl
  realMul_eq _ _ := rfl
  realDiv_eq _ _ _ := rfl
  realEq_iff := decide_eq_true_iff
  re_ofParts _ _ := rfl
  im_ofParts _ _ := rfl
  ofParts_re_im _ := rfl
  ofParts_eq x y := by
    apply Complex.ext <;> simp [ofParts]
  add_eq _ _ := rfl
  mul_eq _ _ := rfl
  div_eq _ _ _ := rfl
  inv_eq _ := rfl
  scale_eq _ _ := rfl
  addTo_eq _ _ := rfl
  divInto_eq _ _ _ := rfl
  sqrt_algebraMap {x} hx := by
    change (x : ℂ) ^ (1 / 2 : ℂ) = ((√x : ℝ) : ℂ)
    rw [Real.sqrt_eq_rpow, Complex.ofReal_cpow hx, Complex.ofReal_div, Complex.ofReal_one,
      Complex.ofReal_ofNat]
  powReal_one z := by simp [powReal]
  powReal_half z := by simp [powReal, sqrt]
  powReal_neg_one z := by simp [powReal, inv, Complex.cpow_neg_one]

instance : SignedArithmetic ℝ ℂ where
  realLt_iff := decide_eq_true_iff
  neg_eq _ := rfl
  subFrom_eq _ _ := rfl

instance : ExponentialLaws ℝ ℂ where
  exp_zero := Complex.exp_zero
  exp_add := Complex.exp_add

/-- Two complex exponentials of opposite arguments off the imaginary axis differ in modulus. -/
theorem exp_add_sub_exp_neg_ne_zero {z : ℂ} (h : z.re ≠ 0) :
    exp z + exp (-z) ≠ 0 ∧ exp z - exp (-z) ≠ 0 := by
  have hnorm : ‖Complex.exp z‖ ≠ ‖Complex.exp (-z)‖ := by
    rw [Complex.norm_exp, Complex.norm_exp, Complex.neg_re]
    exact Real.exp_injective.ne (self_ne_neg.mpr h)
  constructor
  · intro hsum
    apply hnorm
    rw [← norm_neg (Complex.exp (-z))]
    exact congrArg norm (eq_neg_of_add_eq_zero_left hsum)
  · intro hdifference
    exact hnorm (congrArg norm (sub_eq_zero.mp hdifference))

/-- The square root of a number that is not real lies off the imaginary axis. -/
theorem re_powReal_half_ne_zero {z : ℂ} (h : z.im ≠ 0) : (powReal z (1 / 2) : ℂ).re ≠ 0 := by
  have hsquare : (powReal z (1 / 2) : ℂ) ^ 2 = z := by
    have hroot : (((1 / 2 : ℝ)) : ℂ) = ((2 : ℕ) : ℂ)⁻¹ := by norm_num
    change (z ^ (((1 / 2 : ℝ)) : ℂ)) ^ 2 = z
    rw [hroot]
    exact Complex.cpow_nat_inv_pow z two_ne_zero
  intro hre
  apply h
  rw [← hsquare, sq, Complex.mul_im, hre, zero_mul, mul_zero, add_zero]

end CircuitCode
