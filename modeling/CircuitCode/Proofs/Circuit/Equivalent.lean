import CircuitCode.Proofs.Circuit.Agreement
import CircuitCode.Proofs.Complex.Hyperbolic
import CircuitCode.Proofs.Connection.Splicing

/-!
# Elements that are equivalent to others

The formulas of the kinds are written apart from each other, but at particular values of their
parameters they describe the same element, or a resistor and a capacitor that are connected
(`formulas_coincide`). This is said of elements with real numbers for their parameters; an element
with stored numbers stands for such an element, and so does a connection of elements
(`Connection.impedance_ideal`).
-/

namespace CircuitCode

open ComplexArithmetic ExactArithmetic SignedArithmetic

/-- An element with real numbers for its parameters, in the order of its kind's definition. -/
structure IdealElement (R : Type) where
  kind : ElementKind
  values : List R

namespace IdealElement

/-- The impedance of an element at a frequency in hertz. -/
def impedance {R C : Type} [ComplexArithmetic R C] (e : IdealElement R) (frequency : R) : C :=
  e.kind.impedance (fun i => e.values.getD i (ofNumber C 0)) (jω frequency)

/-- The impedance of a tree of elements at a frequency in hertz. -/
def impedanceOf {R C : Type} [ComplexArithmetic R C] (node : Node (IdealElement R))
    (frequency : R) : C :=
  node.impedance fun e => e.impedance frequency

end IdealElement

section

variable {R C : Type} [ComplexArithmetic R C]

variable (C) in
/-- The element with real parameters that an element stands for. -/
def Element.ideal (e : Element) : IdealElement R :=
  ⟨e.kind, e.parameters.map fun p => ofNumber C p.value⟩

theorem Element.impedance_ideal (e : Element) (frequency : R) :
    (e.ideal C).impedance frequency = (e.impedance frequency : C) := by
  have hvalues : e.parameters.map (fun p => ofNumber C p.value) =
      (e.parameters.map fun p => p.value).map (ofNumber C) := by
    rw [List.map_map]
    rfl
  simp only [IdealElement.impedance, Element.impedance, ideal, hvalues, List.getD_map]

/-- The impedance of a connection of elements is that of the elements that these stand for. -/
theorem Connection.impedance_ideal (c : Connection Element) (frequency : R) :
    IdealElement.impedanceOf (c.toNode.map (Element.ideal C)) frequency =
      (c.impedance frequency : C) := by
  rw [IdealElement.impedanceOf, Node.impedance, Node.fold_map, Connection.impedance,
    Node.impedance]
  simp only [Element.impedance_ideal]

theorem Element.ideal_unit [Field R] [LinearOrder R] [IsStrictOrderedRing R] [Field C]
    [Algebra R C] [ExactArithmetic R C] (kind : ElementKind) :
    (Element.unit kind).ideal C = ⟨kind, kind.parameters.map fun _ => 1⟩ := by
  rw [ideal, unit, List.map_map]
  simp only [Function.comp_def, ofNumber_one]

end

namespace IdealElement

section

variable {R C : Type} [ComplexArithmetic R C] [Field R] [LinearOrder R] [Field C] [Algebra R C]
  [ExactArithmetic R C] {frequency : R}

theorem impedance_resistor (r : R) :
    (impedance ⟨.resistor, [r]⟩ frequency : C) = algebraMap R C r := ofReal_eq r

theorem impedanceOf_series (a b : IdealElement R) :
    (impedanceOf (.branch .series [.leaf a, .leaf b]) frequency : C) =
      a.impedance frequency + b.impedance frequency := by
  rw [impedanceOf, Node.impedance, Node.fold_branch]
  exact (sum_eq _).trans List.sum_pair

/-- Two branches in parallel, neither of which is a short, unless their admittances cancel. -/
theorem impedanceOf_parallel {a b : IdealElement R} (ha : (a.impedance frequency : C) ≠ 0)
    (hb : (b.impedance frequency : C) ≠ 0)
    (hsum : (a.impedance frequency : C)⁻¹ + (b.impedance frequency)⁻¹ ≠ 0) :
    (impedanceOf (.branch .parallel [.leaf a, .leaf b]) frequency : C) =
      ((a.impedance frequency)⁻¹ + (b.impedance frequency)⁻¹)⁻¹ := by
  have hshort : ¬ [(a.impedance frequency : C), b.impedance frequency].any isZero = true := by
    rw [List.any_eq_true]
    rintro ⟨z, hz, hzero⟩
    rw [isZero_iff] at hzero
    subst hzero
    rcases List.mem_pair.mp hz with h | h
    · exact ha h.symm
    · exact hb h.symm
  rw [impedanceOf, Node.impedance, Node.fold_branch]
  change parallel [(a.impedance frequency : C), b.impedance frequency] = _
  rw [parallel, if_neg hshort, List.map_cons, List.map_singleton, inv_eq ha, inv_eq hb, sum_eq,
    List.sum_pair, inv_eq hsum]

theorem constantPhase_one (y : R) :
    (impedance ⟨.constantPhase, [y, 1]⟩ frequency : C) = impedance ⟨.capacitor, [y]⟩ frequency := by
  change inv (scale (powReal (jω frequency) 1) y) = inv (scale (jω frequency) y)
  rw [powReal_one]

theorem constantPhase_zero (hpow : ∀ z : C, powReal z 0 = 1) {y : R} (hy : y ≠ 0) :
    (impedance ⟨.constantPhase, [y, 0]⟩ frequency : C) =
      impedance ⟨.resistor, [1 / y]⟩ frequency := by
  change inv (scale (powReal (jω frequency) 0) y) = _
  rw [hpow, scale_eq, one_mul, inv_eq ((map_ne_zero _).mpr hy), impedance_resistor, one_div,
    map_inv₀]

theorem constantPhase_half (y : R) :
    (impedance ⟨.constantPhase, [y, 1 / 2]⟩ frequency : C) =
      impedance ⟨.warburg, [y]⟩ frequency := by
  change inv (scale (powReal (jω frequency) (1 / 2)) y) = inv (scale (sqrt (jω frequency)) y)
  rw [powReal_half]

theorem modifiedInductor_one (l : R) :
    (impedance ⟨.modifiedInductor, [l, 1]⟩ frequency : C) =
      impedance ⟨.inductor, [l]⟩ frequency := by
  change scale (powReal (jω frequency) 1) l = scale (jω frequency) l
  rw [powReal_one]

theorem havriliakNegamiAlternative_one (r t : R) :
    (impedance ⟨.havriliakNegamiAlternative, [r, t, 1, 1]⟩ frequency : C) =
      impedance ⟨.kramersKronig, [r, t]⟩ frequency := by
  change divInto r (powReal (addTo (ofNumber C 1) (powReal (scale (jω frequency) t) 1)) 1) =
    divInto r (addTo (ofNumber C 1) (scale (jω frequency) t))
  rw [powReal_one, powReal_one]

end

section

variable {R C : Type} [ComplexArithmetic R C] [Field R] [LinearOrder R] [IsStrictOrderedRing R]
  [Field C] [Algebra R C] [ExactArithmetic R C] {frequency : R}

theorem impedance_capacitor (hfrequency : frequency ≠ 0) {c : R} (hc : c ≠ 0) :
    (impedance ⟨.capacitor, [c]⟩ frequency : C) = (jω frequency * algebraMap R C c)⁻¹ := by
  change inv (scale (jω frequency) c) = _
  rw [scale_eq, inv_eq (jω_mul_ne_zero hfrequency hc)]

/-- A resistor and a capacitor in parallel. -/
theorem impedanceOf_resistor_capacitor (hfrequency : frequency ≠ 0) {r c : R} (hr : r ≠ 0)
    (hc : c ≠ 0) :
    (impedanceOf (.branch .parallel [.leaf ⟨.resistor, [r]⟩, .leaf ⟨.capacitor, [c]⟩])
      frequency : C) = (algebraMap R C r⁻¹ + jω frequency * algebraMap R C c)⁻¹ := by
  have hresistor : (impedance ⟨.resistor, [r]⟩ frequency : C)⁻¹ = algebraMap R C r⁻¹ := by
    rw [impedance_resistor, map_inv₀]
  have hcapacitor : (impedance ⟨.capacitor, [c]⟩ frequency : C)⁻¹ =
      jω frequency * algebraMap R C c := by
    rw [impedance_capacitor hfrequency hc, inv_inv]
  have hsum := algebraMap_add_jω_mul_ne_zero (C := C) (inv_ne_zero hr) c frequency
  rw [← hresistor, ← hcapacitor] at hsum ⊢
  refine impedanceOf_parallel ?_ ?_ hsum
  · rw [impedance_resistor]
    exact (map_ne_zero _).mpr hr
  · rw [impedance_capacitor hfrequency hc]
    exact inv_ne_zero (jω_mul_ne_zero hfrequency hc)

theorem kramersKronig_eq_parallel (hfrequency : frequency ≠ 0) {r t : R} (hr : r ≠ 0)
    (ht : t ≠ 0) :
    (impedance ⟨.kramersKronig, [r, t]⟩ frequency : C) =
      impedanceOf (.branch .parallel [.leaf ⟨.resistor, [r]⟩, .leaf ⟨.capacitor, [t / r]⟩])
        frequency := by
  have hdivisor := algebraMap_add_jω_mul_ne_zero (C := C) (one_ne_zero (α := R)) t frequency
  rw [impedanceOf_resistor_capacitor hfrequency hr (div_ne_zero ht hr)]
  calc divInto r (addTo (ofNumber C 1) (scale (jω frequency) t))
      = algebraMap R C r / (algebraMap R C 1 + jω frequency * algebraMap R C t) := by
        rw [addTo_eq, scale_eq, ofNumber_one, divInto_eq r hdivisor]
    _ = ((algebraMap R C 1 + jω frequency * algebraMap R C t) / algebraMap R C r)⁻¹ :=
        (inv_div _ _).symm
    _ = (algebraMap R C r⁻¹ + jω frequency * algebraMap R C (t / r))⁻¹ := by
        rw [add_div, mul_div_assoc, ← map_div₀, ← map_div₀, one_div]

theorem gerischer_one (hfrequency : frequency ≠ 0) {y k : R} (hy : y ≠ 0) (hk : k ≠ 0) :
    (impedance ⟨.gerischer, [y, k, 1]⟩ frequency : C) =
      impedanceOf (.branch .parallel
        [.leaf ⟨.resistor, [1 / (y * k)]⟩, .leaf ⟨.capacitor, [y]⟩]) frequency := by
  have hshifted : algebraMap R C k + jω frequency ≠ 0 := by
    have := algebraMap_add_jω_mul_ne_zero (C := C) hk 1 frequency
    rwa [map_one, mul_one] at this
  have hdivisor : (algebraMap R C k + jω frequency) * algebraMap R C y ≠ 0 :=
    mul_ne_zero hshifted ((map_ne_zero _).mpr hy)
  rw [impedanceOf_resistor_capacitor hfrequency (one_div_ne_zero (mul_ne_zero hy hk)) hy]
  calc inv (scale (powReal (addTo k (jω frequency)) 1) y)
      = ((algebraMap R C k + jω frequency) * algebraMap R C y)⁻¹ := by
        rw [powReal_one, addTo_eq, scale_eq, inv_eq hdivisor]
    _ = (algebraMap R C (1 / (y * k))⁻¹ + jω frequency * algebraMap R C y)⁻¹ := by
        rw [one_div, inv_inv, map_mul, add_mul, mul_comm (algebraMap R C y)]

theorem havriliakNegami_one (hfrequency : frequency ≠ 0) {c : R} (hc : c ≠ 0) (t : R) :
    (impedance ⟨.havriliakNegami, [c, t, 1, 1]⟩ frequency : C) =
      impedanceOf (.branch .series [.leaf ⟨.resistor, [t / c]⟩, .leaf ⟨.capacitor, [c]⟩])
        frequency := by
  rw [impedanceOf_series, impedance_resistor, impedance_capacitor hfrequency hc]
  calc div (powReal (addTo (ofNumber C 1) (powReal (scale (jω frequency) t) 1)) 1)
        (scale (jω frequency) c)
      = (1 + jω frequency * algebraMap R C t) / (jω frequency * algebraMap R C c) := by
        rw [powReal_one, powReal_one, addTo_eq, ofNumber_one, map_one, scale_eq, scale_eq,
          div_eq _ (jω_mul_ne_zero hfrequency hc)]
    _ = algebraMap R C (t / c) + (jω frequency * algebraMap R C c)⁻¹ := by
        rw [add_div, mul_div_mul_left _ _ (jω_ne_zero hfrequency), ← map_div₀, one_div, add_comm]

theorem havriliakNegami_zero (hpow : ∀ z : C, powReal z 0 = 1) (hfrequency : frequency ≠ 0)
    {c : R} (hc : c ≠ 0) (t a : R) :
    (impedance ⟨.havriliakNegami, [c, t, a, 0]⟩ frequency : C) =
      impedance ⟨.capacitor, [c]⟩ frequency := by
  change div (powReal (addTo (ofNumber C 1) (powReal (scale (jω frequency) t) a)) 0)
    (scale (jω frequency) c) = _
  rw [hpow, scale_eq, div_eq _ (jω_mul_ne_zero hfrequency hc), one_div,
    impedance_capacitor hfrequency hc]

end

section

variable {R C : Type} [ComplexArithmetic R C] [Field R] [LinearOrder R] [Field C] [Algebra R C]
  [SignedArithmetic R C] {frequency : R}

/-- The two finite Warburg elements with the same parameters, where neither divides by zero. -/
theorem warburgShort_mul_warburgOpen {y b n : R} (hy : y ≠ 0)
    (hpower : (powReal (jω frequency) n : C) ≠ 0)
    (htanh : (tanhDivisor (powReal (scale (jω frequency) b) n) : C) ≠ 0)
    (hcoth : (cothDivisor (powReal (scale (jω frequency) b) n) : C) ≠ 0) :
    (impedance ⟨.warburgShort, [y, b, n]⟩ frequency * impedance ⟨.warburgOpen, [y, b, n]⟩ frequency
      : C) = impedance ⟨.constantPhase, [y, n]⟩ frequency ^ 2 := by
  have hdivisor : scale (powReal (jω frequency : C) n) y ≠ 0 := by
    rw [scale_eq]
    exact mul_ne_zero hpower ((map_ne_zero _).mpr hy)
  change div (tanh (powReal (scale (jω frequency) b) n)) (scale (powReal (jω frequency) n) y) *
    div (coth (powReal (scale (jω frequency) b) n)) (scale (powReal (jω frequency) n) y) =
      inv (scale (powReal (jω frequency) n) y) ^ 2
  rw [div_eq _ hdivisor, div_eq _ hdivisor, inv_eq hdivisor, div_mul_div_comm,
    tanh_mul_coth htanh hcoth, ← sq, one_div, inv_pow]

variable [IsStrictOrderedRing R]

/-- Where formulas of different kinds coincide, at a frequency other than zero and wherever they do
    not divide by zero: elements with particular exponents are other elements or a resistor and a
    capacitor that are connected, and the two finite Warburg elements are inverse to each other up
    to the square of a constant phase element. -/
theorem formulas_coincide (hpow : ∀ z : C, powReal z 0 = 1) (hfrequency : frequency ≠ 0) :
    (∀ y : R, (impedance ⟨.constantPhase, [y, 1]⟩ frequency : C) =
      impedance ⟨.capacitor, [y]⟩ frequency) ∧
    (∀ y : R, y ≠ 0 → (impedance ⟨.constantPhase, [y, 0]⟩ frequency : C) =
      impedance ⟨.resistor, [1 / y]⟩ frequency) ∧
    (∀ y : R, (impedance ⟨.constantPhase, [y, 1 / 2]⟩ frequency : C) =
      impedance ⟨.warburg, [y]⟩ frequency) ∧
    (∀ l : R, (impedance ⟨.modifiedInductor, [l, 1]⟩ frequency : C) =
      impedance ⟨.inductor, [l]⟩ frequency) ∧
    (∀ r t : R, (impedance ⟨.havriliakNegamiAlternative, [r, t, 1, 1]⟩ frequency : C) =
      impedance ⟨.kramersKronig, [r, t]⟩ frequency) ∧
    (∀ r t : R, r ≠ 0 → t ≠ 0 → (impedance ⟨.kramersKronig, [r, t]⟩ frequency : C) =
      impedanceOf (.branch .parallel [.leaf ⟨.resistor, [r]⟩, .leaf ⟨.capacitor, [t / r]⟩])
        frequency) ∧
    (∀ c t : R, c ≠ 0 → (impedance ⟨.havriliakNegami, [c, t, 1, 1]⟩ frequency : C) =
      impedanceOf (.branch .series [.leaf ⟨.resistor, [t / c]⟩, .leaf ⟨.capacitor, [c]⟩])
        frequency) ∧
    (∀ c t a : R, c ≠ 0 → (impedance ⟨.havriliakNegami, [c, t, a, 0]⟩ frequency : C) =
      impedance ⟨.capacitor, [c]⟩ frequency) ∧
    (∀ y k : R, y ≠ 0 → k ≠ 0 → (impedance ⟨.gerischer, [y, k, 1]⟩ frequency : C) =
      impedanceOf (.branch .parallel [.leaf ⟨.resistor, [1 / (y * k)]⟩, .leaf ⟨.capacitor, [y]⟩])
        frequency) ∧
    (∀ y b n : R, y ≠ 0 → (powReal (jω frequency) n : C) ≠ 0 →
      (tanhDivisor (powReal (scale (jω frequency) b) n) : C) ≠ 0 →
      (cothDivisor (powReal (scale (jω frequency) b) n) : C) ≠ 0 →
      (impedance ⟨.warburgShort, [y, b, n]⟩ frequency *
        impedance ⟨.warburgOpen, [y, b, n]⟩ frequency : C) =
          impedance ⟨.constantPhase, [y, n]⟩ frequency ^ 2) := by
  refine ⟨constantPhase_one, ?_, constantPhase_half, modifiedInductor_one,
    havriliakNegamiAlternative_one, ?_, ?_, ?_, ?_, ?_⟩
  · exact fun y hy => constantPhase_zero hpow hy
  · exact fun r t hr ht => kramersKronig_eq_parallel hfrequency hr ht
  · exact fun c t hc => havriliakNegami_one hfrequency hc t
  · exact fun c t a hc => havriliakNegami_zero hpow hfrequency hc t a
  · exact fun y k hy hk => gerischer_one hfrequency hy hk
  · exact fun y b n hy hpower htanh hcoth => warburgShort_mul_warburgOpen hy hpower htanh hcoth

end

/-- The formulas at 1 Hz, with a negative resistance in the parallel connection, and its impedance
    as a circuit has it. -/
theorem formulas_coincide_oneHertz :
    (∀ z : ℂ, powReal z 0 = 1) ∧ (1 : ℝ) ≠ 0 ∧
    (impedance ⟨.constantPhase, [2, 0]⟩ (1 : ℝ) : ℂ) = impedance ⟨.resistor, [1 / 2]⟩ 1 ∧
    (impedance ⟨.kramersKronig, [-2, 3]⟩ (1 : ℝ) : ℂ) =
      impedanceOf (.branch .parallel [.leaf ⟨.resistor, [-2]⟩, .leaf ⟨.capacitor, [3 / -2]⟩]) 1 ∧
    (Connection.impedance ⟨.parallel, [.leaf (.unit .resistor), .leaf (.unit .capacitor)]⟩
      (1 : ℝ) : ℂ) = Element.impedance (.unit .kramersKronig) 1 ∧
    (impedance ⟨.havriliakNegami, [2, 3, 1, 1]⟩ (1 : ℝ) : ℂ) =
      impedanceOf (.branch .series [.leaf ⟨.resistor, [3 / 2]⟩, .leaf ⟨.capacitor, [2]⟩]) 1 ∧
    (impedance ⟨.havriliakNegami, [2, 3, 1 / 2, 0]⟩ (1 : ℝ) : ℂ) = impedance ⟨.capacitor, [2]⟩ 1 ∧
    (impedance ⟨.gerischer, [2, 3, 1]⟩ (1 : ℝ) : ℂ) =
      impedanceOf
        (.branch .parallel [.leaf ⟨.resistor, [1 / (2 * 3)]⟩, .leaf ⟨.capacitor, [2]⟩]) 1 ∧
    (impedance ⟨.warburgShort, [2, 3, 1 / 2]⟩ (1 : ℝ) *
      impedance ⟨.warburgOpen, [2, 3, 1 / 2]⟩ (1 : ℝ) : ℂ) =
        impedance ⟨.constantPhase, [2, 1 / 2]⟩ 1 ^ 2 := by
  have hpow : ∀ z : ℂ, powReal z 0 = 1 := by
    intro z
    change z ^ (((0 : ℝ)) : ℂ) = 1
    rw [Complex.ofReal_zero, Complex.cpow_zero]
  have htwo : (2 : ℝ) ≠ 0 := two_ne_zero
  have hthree : (3 : ℝ) ≠ 0 := three_ne_zero
  have him : (jω (1 : ℝ) : ℂ).im ≠ 0 := by
    change realMul ℂ (ofNumber ℂ twoPi) 1 ≠ 0
    rw [realMul_eq, mul_one]
    exact twoPi_pos.ne'
  have hscaled : (scale (jω (1 : ℝ)) 3 : ℂ).im ≠ 0 := by
    change (jω (1 : ℝ) * ((3 : ℝ) : ℂ)).im ≠ 0
    rw [Complex.im_mul_ofReal]
    exact mul_ne_zero him hthree
  have hpower : (powReal (jω (1 : ℝ)) (1 / 2) : ℂ) ≠ 0 := by
    intro hzero
    exact re_powReal_half_ne_zero him (congrArg Complex.re hzero)
  obtain ⟨hsum, hdifference⟩ :=
    exp_add_sub_exp_neg_ne_zero (re_powReal_half_ne_zero hscaled)
  obtain ⟨-, hresistor, -, -, -, hparallel, hseries, hcapacitor, hgerischer, hwarburg⟩ :=
    formulas_coincide hpow (one_ne_zero (α := ℝ))
  have hstored := hparallel 1 1 one_ne_zero one_ne_zero
  rw [div_one] at hstored
  refine ⟨hpow, one_ne_zero, hresistor 2 htwo, hparallel (-2) 3 (neg_ne_zero.mpr htwo) hthree, ?_,
    hseries 2 3 htwo, hcapacitor 2 3 (1 / 2) htwo, hgerischer 2 3 htwo hthree, ?_⟩
  · rw [← Connection.impedance_ideal, ← Element.impedance_ideal]
    change impedanceOf (.branch .parallel [.leaf ((Element.unit .resistor).ideal ℂ),
      .leaf ((Element.unit .capacitor).ideal ℂ)]) 1 = _
    rw [Element.ideal_unit, Element.ideal_unit, Element.ideal_unit]
    exact hstored.symm
  · exact hwarburg 2 3 (1 / 2) htwo hpower (ExponentialLaws.tanhDivisor_ne_zero_iff.mpr hsum)
      (ExponentialLaws.cothDivisor_ne_zero_iff.mpr hdifference)

end IdealElement

end CircuitCode
