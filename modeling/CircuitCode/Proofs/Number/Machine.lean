import CircuitCode.Complex.Machine
import CircuitCode.Connection.Evaluation

/-!
# Zeros and values that are not numbers on the machine

The inverse of a zero is not a number, and neither is what is computed from it. So a sum of
inverses with the inverse of a zero among them has no inverse.
-/

namespace CircuitCode

open Float.Model

namespace MachineReal

/-- A zero of either sign. -/
def IsZero (x : MachineReal) : Prop :=
  ∃ f h sign, x = value f h ∧ f.toModel.unpack = .zero sign

theorem unpack_pack_zero (sign : UnpackedFloat.Sign) : (pack (.zero sign)).unpack = .zero sign := by
  cases sign <;> rfl

/-- Packing a zero gives a zero. -/
theorem isZero_ofFloat {f : Float} {sign : UnpackedFloat.Sign}
    (h : f.toModel = pack (.zero sign)) : IsZero (ofFloat f) := by
  have hunpack : f.toModel.unpack = .zero sign := by rw [h, unpack_pack_zero]
  have hnumber : f.isNaN = false := by
    change f.toModel.unpack.isNaN = false
    rw [hunpack]
    rfl
  exact ⟨f, hnumber, sign, dif_pos hnumber, hunpack⟩

theorem isZero_ofNumber_zero : IsZero (ofNumber 0) := by
  rw [Number.ofNat_zero]
  have hmodel : (Float.ofBits 0).toModel = pack (.zero .positive) := rfl
  exact isZero_ofFloat hmodel

theorem isZero_of_beq {x y : MachineReal} (hy : y.IsZero) (h : (x == y) = true) : x.IsZero := by
  obtain ⟨g, hg, sign, rfl, hzero⟩ := hy
  cases x with
  | nan => cases h
  | value f hf =>
    change (f.toModel.unpack.compare g.toModel.unpack == some .eq) = true at h
    rw [hzero, beq_iff_eq] at h
    cases hf' : f.toModel.unpack with
    | zero sign' => exact ⟨f, hf, sign', rfl, hf'⟩
    | notANumber =>
      rw [hf'] at h
      cases h
    | infinity sign' =>
      rw [hf'] at h
      cases sign' <;> cases h
    | finite sign' mantissa exponent hm =>
      rw [hf'] at h
      cases sign' <;> cases h

theorem beq_of_isZero {x y : MachineReal} (hx : x.IsZero) (hy : y.IsZero) : (x == y) = true := by
  obtain ⟨f, hf, sign, rfl, hf'⟩ := hx
  obtain ⟨g, hg, sign', rfl, hg'⟩ := hy
  change (f.toModel.unpack.compare g.toModel.unpack == some .eq) = true
  rw [hf', hg']
  rfl

theorem IsZero.add {x y : MachineReal} (hx : x.IsZero) (hy : y.IsZero) : (x + y).IsZero := by
  obtain ⟨f, hf, sign, rfl, hf'⟩ := hx
  obtain ⟨g, hg, sign', rfl, hg'⟩ := hy
  have hsum : (f.add g).toModel =
      pack (UnpackedFloat.add .binary64 (.zero sign) (.zero sign')) := by
    rw [← hf', ← hg']
    rfl
  cases sign <;> cases sign' <;> exact isZero_ofFloat hsum

theorem IsZero.mul {x y : MachineReal} (hx : x.IsZero) (hy : y.IsZero) : (x * y).IsZero := by
  obtain ⟨f, hf, sign, rfl, hf'⟩ := hx
  obtain ⟨g, hg, sign', rfl, hg'⟩ := hy
  have hproduct : (f.mul g).toModel = pack (.zero (sign * sign')) := by
    change pack (UnpackedFloat.mul .binary64 f.toModel.unpack g.toModel.unpack) = _
    rw [hf', hg']
    rfl
  exact isZero_ofFloat hproduct

theorem IsZero.neg {x : MachineReal} (hx : x.IsZero) : (-x).IsZero := by
  obtain ⟨f, hf, sign, rfl, hf'⟩ := hx
  have hneg : f.neg.toModel = pack (.zero (-sign)) := by
    change pack f.toModel.unpack.neg = _
    rw [hf']
    rfl
  exact isZero_ofFloat hneg

/-- A zero divided by a zero is not a number. -/
theorem IsZero.isNaN_div {x y : MachineReal} (hx : x.IsZero) (hy : y.IsZero) :
    (x / y).isNaN = true := by
  obtain ⟨f, hf, sign, rfl, hf'⟩ := hx
  obtain ⟨g, hg, sign', rfl, hg'⟩ := hy
  have hquotient : (f.div g).toModel = pack .notANumber := by
    change pack (UnpackedFloat.div .binary64 f.toModel.unpack g.toModel.unpack) = _
    rw [hf', hg']
    rfl
  have hnan : (f.div g).isNaN = true := by
    change (f.div g).toModel.isNaN = true
    rw [hquotient]
    rfl
  change (ofFloat (f.div g)).isNaN = true
  rw [ofFloat, dif_neg (by rw [hnan]; decide)]
  rfl

theorem isNaN_lift₂_left {op : Float → Float → Float} {x y : MachineReal} (hx : x.isNaN = true) :
    (lift₂ op x y).isNaN = true := by
  cases x with
  | nan => rfl
  | value => cases hx

theorem isNaN_lift₂_right {op : Float → Float → Float} {x y : MachineReal} (hy : y.isNaN = true) :
    (lift₂ op x y).isNaN = true := by
  cases x with
  | nan => rfl
  | value =>
    cases y with
    | nan => rfl
    | value => cases hy

theorem isNaN_neg {x : MachineReal} (hx : x.isNaN = true) : (-x).isNaN = true := by
  cases x with
  | nan => rfl
  | value => cases hx

theorem beq_eq_false_of_isNaN {x y : MachineReal} (hx : x.isNaN = true) : (x == y) = false := by
  cases x with
  | nan => rfl
  | value => cases hx

end MachineReal

namespace MachineComplex

open ComplexArithmetic MachineReal

/-- Neither part is a number. -/
def IsNaN (z : MachineComplex) : Prop := z.re.isNaN = true ∧ z.im.isNaN = true

theorem isZero_zero : isZero (zero : MachineComplex) = true := by
  have h := beq_of_isZero isZero_ofNumber_zero isZero_ofNumber_zero
  change (MachineReal.ofNumber 0 == MachineReal.ofNumber 0 &&
    MachineReal.ofNumber 0 == MachineReal.ofNumber 0) = true
  rw [h]
  rfl

theorem IsNaN.isZero_eq_false {z : MachineComplex} (h : z.IsNaN) : isZero z = false := by
  change (z.re == MachineReal.ofNumber 0 && z.im == MachineReal.ofNumber 0) = false
  rw [beq_eq_false_of_isNaN h.1, Bool.false_and]

/-- A zero has no inverse. -/
theorem isNaN_inv_of_isZero {z : MachineComplex} (h : isZero z = true) : (z.inv).IsNaN := by
  obtain ⟨hre, him⟩ := Bool.and_eq_true_iff.mp h
  have hre := isZero_of_beq isZero_ofNumber_zero hre
  have him := isZero_of_beq isZero_ofNumber_zero him
  have hnorm : z.normSq.IsZero := (hre.mul hre).add (him.mul him)
  exact ⟨hre.isNaN_div hnorm, him.neg.isNaN_div hnorm⟩

theorem IsNaN.inv {z : MachineComplex} (h : z.IsNaN) : (z.inv).IsNaN :=
  ⟨isNaN_lift₂_left h.1, isNaN_lift₂_left (isNaN_neg h.2)⟩

theorem IsNaN.add_left {z w : MachineComplex} (h : z.IsNaN) : (z.add w).IsNaN :=
  ⟨isNaN_lift₂_left h.1, isNaN_lift₂_left h.2⟩

theorem IsNaN.add_right {z w : MachineComplex} (h : w.IsNaN) : (z.add w).IsNaN :=
  ⟨isNaN_lift₂_right h.1, isNaN_lift₂_right h.2⟩

/-- Once a sum is not a number it remains so. -/
theorem IsNaN.foldl_add {z : MachineComplex} (h : z.IsNaN) (terms : List MachineComplex) :
    (terms.foldl MachineComplex.add z).IsNaN := by
  induction terms generalizing z with
  | nil => exact h
  | cons w terms ih => exact ih h.add_left

theorem isNaN_foldl_add {terms : List MachineComplex} {w : MachineComplex} (hw : w ∈ terms)
    (h : w.IsNaN) (z : MachineComplex) : (terms.foldl MachineComplex.add z).IsNaN := by
  induction terms generalizing z with
  | nil => cases hw
  | cons w' terms ih =>
    rcases List.mem_cons.mp hw with rfl | hw
    · exact h.add_right.foldl_add terms
    · exact ih hw _

theorem isNaN_sum {terms : List MachineComplex} {w : MachineComplex} (hw : w ∈ terms)
    (h : w.IsNaN) : (sum terms : MachineComplex).IsNaN :=
  isNaN_foldl_add hw h _

/-- The inverse of the sum of the inverses is not zero if there is a zero among the terms. -/
theorem isZero_inv_sum_inv_eq_false {zs : List MachineComplex} (h : zs.any isZero = true) :
    isZero (ComplexArithmetic.inv (sum (zs.map ComplexArithmetic.inv))) = false := by
  obtain ⟨z, hz, hzero⟩ := List.any_eq_true.mp h
  have hterm := isNaN_inv_of_isZero hzero
  exact (isNaN_sum (List.mem_map_of_mem hz) hterm).inv.isZero_eq_false

/-- The power with the exponent `-1` is the inverse. -/
theorem power_neg_one (z : MachineComplex) : power z (number (-1)) = ComplexArithmetic.inv z := by
  have him : realEq MachineComplex (ComplexArithmetic.im (number (-1) : MachineComplex))
      (ComplexArithmetic.ofNumber MachineComplex 0) = true :=
    beq_of_isZero isZero_ofNumber_zero isZero_ofNumber_zero
  have hre : realEq MachineComplex (ComplexArithmetic.re (number (-1) : MachineComplex))
      (ComplexArithmetic.ofNumber MachineComplex (-1)) = true := by
    decide +kernel
  rw [power, him, hre, Bool.not_true, if_neg Bool.false_ne_true, if_pos rfl]

end MachineComplex

end CircuitCode
