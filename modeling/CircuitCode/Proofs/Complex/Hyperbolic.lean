import CircuitCode.Proofs.Complex.Standard

/-!
# Hyperbolic functions

The hyperbolic tangent and cotangent are computed from `exp (-2z)` where the real part of `z` is
not negative, and from the value at `-z` elsewhere, so that no exponential overflows. In exact
arithmetic they are the usual quotients of exponentials (`hyperbolic_eq_exponential`). For this
both are written as a quotient of two divisors, up to the sign that stands for the half plane
(`tanh_eq_div`, `coth_eq_div`); that they are inverse to each other needs no law of the exponential
(`tanh_mul_coth`).
-/

namespace CircuitCode

namespace ComplexArithmetic

variable {R C : Type} [ComplexArithmetic R C]

/-- The number itself, or its reflection at the origin if it lies to the left of the imaginary
    axis. -/
def folded (z : C) : C := if realLt C (re z) (ofNumber C 0) then neg z else z

/-- What the hyperbolic tangent divides by. -/
def tanhDivisor (z : C) : C := addTo (ofNumber C 1) (decay (folded z))

/-- What the hyperbolic cotangent divides by. -/
def cothDivisor (z : C) : C := subFrom (ofNumber C 1) (decay (folded z))

/-- The sign of a half plane: `-1` to the left of the imaginary axis and `1` elsewhere. -/
def side [Field C] (z : C) : C := if realLt C (re z) (ofNumber C 0) then -1 else 1

end ComplexArithmetic

open ComplexArithmetic ExactArithmetic

namespace SignedArithmetic

section

variable {R C : Type} [ComplexArithmetic R C] [Field C]

theorem side_mul_side (z : C) : side z * side z = 1 := by
  rw [side]
  split
  · rw [neg_mul_neg, one_mul]
  · rw [one_mul]

theorem side_ne_zero (z : C) : side z ≠ 0 := left_ne_zero_of_mul_eq_one (side_mul_side z)

variable [Field R] [LinearOrder R] [Algebra R C] [SignedArithmetic R C]

theorem folded_eq (z : C) : folded z = side z * z := by
  rw [folded, side]
  split
  · rw [neg_eq, neg_one_mul]
  · rw [one_mul]

/-- The odd function that agrees with `f` in the right half plane. -/
theorem odd_eq (f : C → C) (z : C) : odd f z = side z * f (folded z) := by
  rw [odd, folded, side]
  split
  · rw [neg_eq, neg_one_mul]
  · rw [one_mul]

theorem tanh_eq_div {z : C} (h : tanhDivisor z ≠ 0) :
    tanh z = side z * (cothDivisor z / tanhDivisor z) := by
  rw [tanh, odd_eq]
  exact congrArg (side z * ·) (div_eq _ h)

theorem coth_eq_div {z : C} (h : cothDivisor z ≠ 0) :
    coth z = side z * (tanhDivisor z / cothDivisor z) := by
  rw [coth, odd_eq]
  exact congrArg (side z * ·) (div_eq _ h)

/-- Where both are defined, the hyperbolic tangent and cotangent are inverse to each other. -/
theorem tanh_mul_coth {z : C} (htanh : tanhDivisor z ≠ 0) (hcoth : cothDivisor z ≠ 0) :
    tanh z * coth z = 1 := by
  rw [tanh_eq_div htanh, coth_eq_div hcoth, mul_mul_mul_comm, side_mul_side, one_mul,
    div_mul_div_cancel₀ htanh, div_self hcoth]

theorem re_neg (z : C) : re (-z) = -re z := by
  have h : -z = ofParts (-re z) (-im z) := by
    calc -z = -ofParts (re z) (im z) := by rw [ofParts_re_im]
      _ = ofParts (-re z) (-im z) := by
        rw [ofParts_eq, ofParts_eq (-re z), map_neg, map_neg, mul_neg, neg_add]
  rw [h, re_ofParts]

/-- A number off the imaginary axis and its reflection lie on different sides. -/
theorem side_neg [IsStrictOrderedRing R] {z : C} (h : re z ≠ 0) : side (-z) = -side z := by
  rw [side, side, re_neg, ofNumber_zero]
  rcases h.lt_or_gt with hleft | hright
  · rw [if_pos (realLt_iff.mpr hleft), if_neg, neg_neg]
    exact mt realLt_iff.mp (neg_pos.mpr hleft).not_gt
  · rw [if_pos (realLt_iff.mpr (neg_neg_of_pos hright)), if_neg]
    exact mt realLt_iff.mp hright.not_gt

/-- Off the imaginary axis the oddness is built in, whatever the function: the value to the left
    of the axis is the negated value at the reflection, which is not reflected again. -/
theorem odd_neg [IsStrictOrderedRing R] (f : C → C) {z : C} (h : re z ≠ 0) :
    odd f (-z) = -odd f z := by
  rw [odd_eq, odd_eq, folded_eq, folded_eq, side_neg h, neg_mul_neg, neg_mul]

end

end SignedArithmetic

namespace ExponentialLaws

open SignedArithmetic

variable {R C : Type} [ComplexArithmetic R C] [Field C] [ExponentialLaws R C]

theorem exp_mul_exp_neg (z : C) : exp z * exp (-z) = 1 := by
  rw [← exp_add, add_neg_cancel, exp_zero]

theorem exp_ne_zero (z : C) : exp z ≠ 0 := left_ne_zero_of_mul_eq_one (exp_mul_exp_neg z)

variable [Field R] [LinearOrder R] [IsStrictOrderedRing R] [Algebra R C] [SignedArithmetic R C]

theorem decay_eq (z : C) : decay z = exp (-z) / exp z := by
  have hscale : scale z (ofNumber C (-2)) = -z + -z := by
    rw [scale_eq, ofNumber_neg_two, map_neg, map_ofNat, mul_neg, mul_two, neg_add]
  rw [decay, hscale, exp_add, eq_div_iff (exp_ne_zero z), mul_assoc, mul_comm _ (exp z),
    exp_mul_exp_neg, mul_one]

theorem tanhDivisor_eq (z : C) : tanhDivisor z = (exp z + exp (-z)) / exp (folded z) := by
  have hsum : exp (folded z) + exp (-folded z) = exp z + exp (-z) := by
    rw [folded_eq, side]
    split
    · rw [neg_one_mul, neg_neg, add_comm]
    · rw [one_mul]
  rw [tanhDivisor, addTo_eq, ofNumber_one, map_one, decay_eq, one_add_div (exp_ne_zero _), hsum]

theorem cothDivisor_eq (z : C) :
    cothDivisor z = side z * (exp z - exp (-z)) / exp (folded z) := by
  have hdifference : exp (folded z) - exp (-folded z) = side z * (exp z - exp (-z)) := by
    rw [folded_eq, side]
    split
    · rw [neg_one_mul, neg_neg, neg_one_mul, neg_sub]
    · rw [one_mul, one_mul]
  rw [cothDivisor, subFrom_eq, ofNumber_one, map_one, decay_eq, one_sub_div (exp_ne_zero _),
    hdifference]

theorem tanhDivisor_ne_zero_iff {z : C} : tanhDivisor z ≠ 0 ↔ exp z + exp (-z) ≠ 0 := by
  rw [tanhDivisor_eq, div_ne_zero_iff, and_iff_left (exp_ne_zero _)]

theorem cothDivisor_ne_zero_iff {z : C} : cothDivisor z ≠ 0 ↔ exp z - exp (-z) ≠ 0 := by
  rw [cothDivisor_eq, div_ne_zero_iff, and_iff_left (exp_ne_zero _), mul_ne_zero_iff,
    and_iff_right (side_ne_zero z)]

theorem tanh_eq {z : C} (h : exp z + exp (-z) ≠ 0) :
    tanh z = (exp z - exp (-z)) / (exp z + exp (-z)) := by
  rw [tanh_eq_div (tanhDivisor_ne_zero_iff.mpr h), tanhDivisor_eq, cothDivisor_eq,
    div_div_div_cancel_right₀ (exp_ne_zero _), mul_div_assoc, ← mul_assoc, side_mul_side, one_mul]

theorem coth_eq {z : C} (h : exp z - exp (-z) ≠ 0) :
    coth z = (exp z + exp (-z)) / (exp z - exp (-z)) := by
  rw [coth_eq_div (cothDivisor_ne_zero_iff.mpr h), tanhDivisor_eq, cothDivisor_eq,
    div_div_div_cancel_right₀ (exp_ne_zero _), ← mul_div_assoc,
    mul_div_mul_left _ _ (side_ne_zero z)]

theorem tanh_neg {z : C} (h : re z ≠ 0 ∨ exp z + exp (-z) ≠ 0) : tanh (-z) = -tanh z := by
  rcases h with hre | hsum
  · exact odd_neg _ hre
  · have hsum' : exp (-z) + exp (- -z) ≠ 0 := by rwa [neg_neg, add_comm]
    rw [tanh_eq hsum, tanh_eq hsum', neg_neg, ← neg_div, neg_sub, add_comm (exp z)]

theorem coth_neg {z : C} (h : re z ≠ 0 ∨ exp z - exp (-z) ≠ 0) : coth (-z) = -coth z := by
  rcases h with hre | hdifference
  · exact odd_neg _ hre
  · have hdifference' : exp (-z) - exp (- -z) ≠ 0 := by
      rwa [neg_neg, sub_ne_zero, ne_comm, ← sub_ne_zero]
    rw [coth_eq hdifference, coth_eq hdifference', neg_neg, ← div_neg, neg_sub, add_comm (exp z)]

/-- In both half planes and on the axis between them, the hyperbolic tangent and cotangent are the
    quotients of exponentials by which they are defined, wherever these do not divide by zero. They
    are odd and inverse to each other. -/
theorem hyperbolic_eq_exponential (z : C) :
    (exp z + exp (-z) ≠ 0 → tanh z = (exp z - exp (-z)) / (exp z + exp (-z))) ∧
    (exp z - exp (-z) ≠ 0 → coth z = (exp z + exp (-z)) / (exp z - exp (-z))) ∧
    (re z ≠ 0 ∨ exp z + exp (-z) ≠ 0 → tanh (-z) = -tanh z) ∧
    (re z ≠ 0 ∨ exp z - exp (-z) ≠ 0 → coth (-z) = -coth z) ∧
    (exp z + exp (-z) ≠ 0 → exp z - exp (-z) ≠ 0 → tanh z * coth z = 1) := by
  refine ⟨tanh_eq, coth_eq, tanh_neg, coth_neg, ?_⟩
  intro hsum hdifference
  exact tanh_mul_coth (tanhDivisor_ne_zero_iff.mpr hsum) (cothDivisor_ne_zero_iff.mpr hdifference)

/-- To the left of the imaginary axis, where the functions are taken from the other side. -/
theorem hyperbolic_eq_exponential_leftHalfPlane :
    (re (Complex.I - 2) : ℝ) = -2 ∧
    exp (Complex.I - 2) + exp (-(Complex.I - 2)) ≠ 0 ∧
    exp (Complex.I - 2) - exp (-(Complex.I - 2)) ≠ 0 ∧
    tanh (Complex.I - 2) = (exp (Complex.I - 2) - exp (-(Complex.I - 2))) /
      (exp (Complex.I - 2) + exp (-(Complex.I - 2))) ∧
    coth (-(Complex.I - 2)) = -coth (Complex.I - 2) ∧
    tanh (Complex.I - 2) * coth (Complex.I - 2) = 1 := by
  have hre : (re (Complex.I - 2) : ℝ) = -2 := by
    change (Complex.I - 2).re = -2
    simp
  have hleft : (re (Complex.I - 2) : ℝ) ≠ 0 := by
    rw [hre]
    norm_num
  obtain ⟨hsum, hdifference⟩ := exp_add_sub_exp_neg_ne_zero hleft
  obtain ⟨htanh, -, -, hodd, hproduct⟩ := hyperbolic_eq_exponential (Complex.I - 2)
  exact ⟨hre, hsum, hdifference, htanh hsum, hodd (.inl hleft), hproduct hsum hdifference⟩

end ExponentialLaws

end CircuitCode
