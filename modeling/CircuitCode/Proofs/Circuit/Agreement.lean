import CircuitCode.Circuit.Impedance
import CircuitCode.Proofs.Complex.Standard
import CircuitCode.Proofs.Connection.Tree
import CircuitCode.Proofs.Element.Agreement

/-!
# The two impedances of a circuit

In exact arithmetic the impedance of a circuit is the value of its expression in which parameters
are numbers. Where the impedance of a branch in parallel is zero this may fail, since the
expression only knows of a short that is a literal zero.
-/

namespace CircuitCode

open ComplexArithmetic ExactArithmetic CircuitCode.Expr

variable {R C : Type} [ComplexArithmetic R C] [Field R] [LinearOrder R] [IsStrictOrderedRing R]
  [Field C] [Algebra R C] [ExactArithmetic R C] {bindings : String → Option C}

/-- Branches in parallel, none of which has the impedance zero. -/
theorem hasValue_parallel {α : Type} {branches : List α} {e : α → Expr} {z : α → C}
    (h : ∀ a ∈ branches, HasValue bindings (e a) (z a)) (hz : ∀ a ∈ branches, z a ≠ 0) :
    HasValue bindings (Expr.parallel (branches.map e))
      (ComplexArithmetic.parallel (branches.map z)) := by
  have hexpr : ¬ (branches.map e).any Expr.isZero = true := by
    rw [List.any_map, List.any_eq_true]
    rintro ⟨a, hmem, hzero⟩
    exact hz a hmem ((h a hmem).eq_zero hzero)
  have hvalue : ¬ (branches.map z).any ComplexArithmetic.isZero = true := by
    rw [List.any_map, List.any_eq_true]
    rintro ⟨a, hmem, hzero⟩
    exact hz a hmem (isZero_iff.mp hzero)
  rw [Expr.parallel, ComplexArithmetic.parallel, if_neg hexpr, if_neg hvalue, List.map_map,
    List.map_map]
  exact (haveValues_map fun a hmem => (h a hmem).recip).sum.recip

/-- The impedance of a tree is the value of its expression if this holds of its leaves and no
    branch in parallel has the impedance zero. -/
theorem Node.hasValue_expression {α : Type} {e : α → Expr} {z : α → C} {node : Node α}
    (hleaf : ∀ a ∈ node.leaves, HasValue bindings (e a) (z a))
    (hbranches : ∀ d ∈ node.connections, d.kind = .parallel →
      ∀ branch ∈ d.children, branch.impedance z ≠ 0) :
    HasValue bindings (node.expression e) (node.impedance z) := by
  induction node using Node.induction with
  | leaf a => exact hleaf a List.mem_cons_self
  | branch kind children ih =>
    have hchildren : ∀ child ∈ children,
        HasValue bindings (child.expression e) (child.impedance z) := by
      intro child hchild
      apply ih child hchild
      · intro a ha
        exact hleaf a (mem_leaves_branch.mpr ⟨child, hchild, ha⟩)
      · intro d hd
        exact hbranches d (mem_connections_branch.mpr (.inr ⟨child, hchild, hd⟩))
    rw [expression, impedance, fold_branch, fold_branch]
    cases kind with
    | series => exact (haveValues_map hchildren).sum
    | parallel =>
      exact hasValue_parallel hchildren
        (hbranches _ (mem_connections_branch.mpr (.inl rfl)) rfl)

/-- The impedance of a circuit is what its expression evaluates to, at each frequency at which no
    formula divides by zero and no branch in parallel has the impedance zero. The first two
    parameters of a de Levie pore are resistances, which must not be negative. -/
theorem Circuit.evaluateAt_expression (c : Circuit) (frequency : R)
    (hdeLevie : ∀ e ∈ c.elements, e.kind = .deLevie →
      ∀ p ∈ e.parameters.take 2, 0 ≤ p.value ∧ p.value < .infinity)
    (hdivisors : ∀ e ∈ c.elements, ∀ z ∈ e.divisors frequency, z ≠ (0 : C))
    (hbranches : ∀ d ∈ c.connections, d.kind = .parallel → ∀ branch ∈ d.children,
      (branch.impedance (fun e => e.impedance frequency) : C) ≠ 0) :
    (c.expression { substitute := true }).evaluateAt "f" frequency =
      .ok (c.impedance frequency : C) := by
  apply Node.hasValue_expression
  · intro e he
    exact Element.hasValue_expression rfl (by simp [Expr.bind, frequencySymbol])
      (hdivisors e he) (hdeLevie e he)
  · intro d hd
    exact hbranches d hd

/-- An element with the value one for each parameter. -/
def Element.unit (kind : ElementKind) : Element :=
  ⟨kind, none, none, kind.parameters.map fun p => { p.instantiate with value := 1 }⟩

/-- A pore in series with a resistor and a capacitor in parallel. -/
def poreCircuit : Circuit :=
  ⟨⟨.series, [.leaf (.unit .deLevie),
    .branch .parallel [.leaf (.unit .resistor), .leaf (.unit .capacitor)]]⟩⟩

theorem Circuit.evaluateAt_expression_poreCircuit :
    (poreCircuit.expression { substitute := true }).evaluateAt "f" (1 : ℝ) =
      .ok (poreCircuit.impedance (1 : ℝ) : ℂ) := by
  have hone : (ofNumber ℂ 1 : ℝ) = 1 := ofNumber_one
  have him : 0 < (ComplexArithmetic.jω (1 : ℝ) : ℂ).im := by
    change (0 : ℝ) < realMul ℂ (ofNumber ℂ twoPi) 1
    rw [realMul_eq, mul_one]
    exact ofNumber_pos (by decide +kernel) (by decide +kernel)
  have hjω : (ComplexArithmetic.jω (1 : ℝ) : ℂ) ≠ 0 := fun h => by simp [h] at him
  have hscaled : (scale (ComplexArithmetic.jω (1 : ℝ)) (ofNumber ℂ 1) : ℂ) ≠ 0 := by
    rw [hone, scale_eq, map_one, mul_one]
    exact hjω
  have hresistor : (ofReal (ofNumber ℂ 1) : ℂ) ≠ 0 := by
    rw [hone, ofReal_eq, map_one]
    exact one_ne_zero
  have hroot : (sqrt (addTo (ofNumber ℂ 1) (scale (powReal (ComplexArithmetic.jω (1 : ℝ))
      (ofNumber ℂ 1)) (ofNumber ℂ 1))) : ℂ) ≠ 0 := by
    rw [hone, powReal_one, scale_eq, addTo_eq, map_one, mul_one]
    intro h
    have hradicand := ((Complex.cpow_eq_zero_iff _ _).mp h).1
    have := congrArg Complex.im hradicand
    rw [Complex.add_im, Complex.one_im, zero_add, Complex.zero_im] at this
    exact him.ne' this
  have helements : poreCircuit.elements = [.unit .deLevie, .unit .resistor, .unit .capacitor] := rfl
  have hconnections : poreCircuit.connections = [poreCircuit.root,
    ⟨.parallel, [.leaf (.unit .resistor), .leaf (.unit .capacitor)]⟩] := rfl
  refine evaluateAt_expression poreCircuit 1 ?_ ?_ ?_
  · rw [helements]
    decide +kernel
  · rw [helements, List.forall_mem_cons, List.forall_mem_cons, List.forall_mem_singleton]
    refine ⟨?_, ?_, ?_⟩
    · exact List.forall_mem_cons.mpr ⟨hresistor, List.forall_mem_singleton.mpr hroot⟩
    · exact List.forall_mem_nil _
    · exact List.forall_mem_singleton.mpr hscaled
  · rw [hconnections, List.forall_mem_cons, List.forall_mem_singleton]
    refine ⟨fun hkind => absurd hkind (by decide), fun _ => ?_⟩
    refine List.forall_mem_cons.mpr ⟨hresistor, List.forall_mem_singleton.mpr ?_⟩
    change (inv (scale (ComplexArithmetic.jω (1 : ℝ)) (ofNumber ℂ 1)) : ℂ) ≠ 0
    rw [inv_eq hscaled]
    exact inv_ne_zero hscaled

end CircuitCode
