import CircuitCode.Proofs.Element.Congruence

/-!
# The two impedances of an element

In exact arithmetic the impedance of an element is the value of its expression, for each kind,
unless a formula divides by zero.
-/

namespace CircuitCode

open ComplexArithmetic

/-- What the impedance formula of a kind divides by or inverts. -/
def ElementKind.divisors {R C : Type} [ComplexArithmetic R C] (kind : ElementKind) (p : Nat → R)
    (jω : C) : List C :=
  let one := ofNumber C 1
  match kind with
  | resistor | inductor | modifiedInductor => []
  | capacitor => [scale jω (p 0)]
  | constantPhase => [scale (powReal jω (p 1)) (p 0)]
  | warburg => [scale (sqrt jω) (p 0)]
  | warburgShort | warburgOpen => [scale (powReal jω (p 2)) (p 0)]
  | deLevie => [ofReal (p 1), sqrt (addTo one (scale (powReal jω (p 3)) (p 2)))]
  | gerischer => [scale (powReal (addTo (p 1) jω) (p 2)) (p 0)]
  | havriliakNegami => [scale jω (p 0)]
  | havriliakNegamiAlternative => [powReal (addTo one (powReal (scale jω (p 1)) (p 2))) (p 3)]
  | kramersKronig => [addTo one (scale jω (p 1))]

namespace Element

variable {R C : Type} [ComplexArithmetic R C]

/-- What the impedance of an element divides by at a frequency in hertz. -/
def divisors (e : Element) (frequency : R) : List C :=
  e.kind.divisors (fun i => ofNumber C (e.valueAt i)) (ComplexArithmetic.jω frequency)

end Element

section

open ExactArithmetic CircuitCode.Expr

variable {R C : Type} [ComplexArithmetic R C] [Field R] [LinearOrder R] [IsStrictOrderedRing R]
  [Field C] [Algebra R C] [ExactArithmetic R C] {bindings : String → Option C}

/-- The term `jω` in a formula and in an expression. -/
theorem hasValue_jω {options : ExpressionOptions} {frequency : R}
    (h : bindings options.frequency = some (ofReal frequency)) :
    HasValue bindings options.jω (ComplexArithmetic.jω frequency) := by
  have := (hasValue_imaginary.mul (HasValue.number twoPi)).mul (hasValue_symbol h)
  rw [ofReal_eq] at this
  rw [ExpressionOptions.jω, ComplexArithmetic.jω, ofParts_zero, realMul_eq, map_mul, ← mul_assoc]
  exact this

/-- The impedance of a de Levie pore. The square roots of real numbers in its formula are complex
    ones in its expression. -/
theorem hasValue_deLevie {x y d : Number} {root : Expr} {z : C} (hroot : HasValue bindings root z)
    (hz : z ≠ 0) (hy : ofNumber C y ≠ 0) (hx : (0 : R) ≤ ofNumber C x)
    (hy' : (0 : R) ≤ ofNumber C y) :
    HasValue bindings
      ((number x * number y).sqrt * coth (number d * (number x / number y).sqrt * root) / root)
      (ComplexArithmetic.div (scale (ComplexArithmetic.coth (scale z (realMul C (ofNumber C d)
        (realSqrt C (realDiv C (ofNumber C x) (ofNumber C y))))))
        (realSqrt C (realMul C (ofNumber C x) (ofNumber C y)))) z) := by
  have hvalue : HasValue bindings (number y) (algebraMap R C (ofNumber C y)) := .number y
  have hmean := ((HasValue.number x).mul hvalue).sqrt
  have hratio := ((HasValue.number x).div hvalue ((map_ne_zero _).mpr hy)).sqrt
  rw [← map_mul, sqrt_algebraMap (mul_nonneg hx hy')] at hmean
  rw [← map_div₀, sqrt_algebraMap (div_nonneg hx hy')] at hratio
  have := (hmean.mul (((HasValue.number d).mul hratio).mul hroot).coth).divide hroot hz
  rw [scale_eq, scale_eq, realMul_eq, realMul_eq, realDiv_eq _ hy, map_mul, mul_comm z,
    mul_comm (ComplexArithmetic.coth _)]
  exact this

/-- For each kind the impedance is the value of the expression. -/
theorem ElementKind.hasValue_expression {kind : ElementKind} {value : Nat → Number} {z : C}
    {jω : Expr} (hjω : HasValue bindings jω z)
    (hdivisors : ∀ w ∈ kind.divisors (fun i => ofNumber C (value i)) z, w ≠ 0)
    (hdeLevie : kind = .deLevie → ∀ i < 2, (0 : R) ≤ ofNumber C (value i)) :
    HasValue bindings (kind.expression (fun i => .number (value i)) jω)
      (kind.impedance (fun i => ofNumber C (value i)) z) := by
  have hpow (i : Nat) := hjω.powReal (value i)
  have hscaled (i j : Nat) := ((hjω.scale_left (value i)).powReal (value j))
  have hshifted := (((hjω.scale (value 1)).powReal (value 2)).addTo 1).powReal (value 3)
  cases kind with
  | resistor =>
    rw [ElementKind.impedance, ofReal_eq]
    exact .number _
  | capacitor => exact (hjω.scale_left _).recip
  | inductor => exact hjω.scale_left _
  | modifiedInductor => exact (hpow 1).scale_left _
  | constantPhase => exact ((hpow 1).scale_left _).recip
  | warburg => exact (hjω.sqrt.scale_left _).recip
  | warburgShort =>
    exact (hscaled 1 2).tanh.divide ((hpow 2).scale_left _) (hdivisors _ List.mem_cons_self)
  | warburgOpen =>
    exact (hscaled 1 2).coth.divide ((hpow 2).scale_left _) (hdivisors _ List.mem_cons_self)
  | deLevie =>
    have hy : algebraMap R C (ofNumber C (value 1)) ≠ 0 := by
      rw [← ofReal_eq]
      exact hdivisors _ List.mem_cons_self
    exact hasValue_deLevie (((hpow 3).scale_left _).addTo 1).sqrt
      (hdivisors _ (List.mem_cons_of_mem _ List.mem_cons_self)) ((map_ne_zero _).mp hy)
      (hdeLevie rfl 0 (by decide)) (hdeLevie rfl 1 (by decide))
  | gerischer => exact (((hjω.addTo _).powReal _).scale_left _).recip
  | havriliakNegami =>
    exact hshifted.divide (hjω.scale _) (hdivisors _ List.mem_cons_self)
  | havriliakNegamiAlternative =>
    exact hshifted.divInto _ (hdivisors _ List.mem_cons_self)
  | kramersKronig =>
    exact ((hjω.scale _).addTo 1).divInto _ (hdivisors _ List.mem_cons_self)

/-- The impedance of an element is the value of its expression, if the formula does not divide by
    zero and the resistances of a de Levie pore, its first two parameters, are not negative. -/
theorem Element.hasValue_expression {e : Element} {options : ExpressionOptions} {frequency : R}
    (hsubstitute : options.substitute = true)
    (hfrequency : bindings options.frequency = some (ofReal frequency))
    (hdivisors : ∀ z ∈ e.divisors frequency, z ≠ (0 : C))
    (hdeLevie : e.kind = .deLevie → ∀ p ∈ e.parameters.take 2, 0 ≤ p.value ∧ p.value < .infinity) :
    HasValue bindings (e.expression options) (e.impedance frequency) := by
  rw [Element.expression, Element.impedance]
  simp only [operand_of_substitute hsubstitute]
  refine ElementKind.hasValue_expression (hasValue_jω hfrequency) hdivisors fun hkind i hi => ?_
  rw [valueAt, List.getD_eq_getElem?_getD, List.getElem?_map]
  cases hp : e.parameters[i]? with
  | none => exact (ofNumber_zero (C := C)).ge
  | some p =>
    have hmem : p ∈ e.parameters.take 2 :=
      List.mem_of_getElem? ((List.getElem?_take_of_lt hi).trans hp)
    obtain ⟨hnonneg, hfinite⟩ := hdeLevie hkind p hmem
    exact ofNumber_nonneg hnonneg hfinite

end

end CircuitCode
