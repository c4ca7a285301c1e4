import CircuitCode.Element.Formula
import CircuitCode.Proofs.Element.State
import CircuitCode.Proofs.Expr.Symbols

/-!
# Symbols in formulas

Every formula uses each parameter of its kind, and all but that of the resistor use the frequency.
-/

namespace CircuitCode

/-- The symbols of a formula are those of its operands and, except for a resistor, of `jω`. -/
theorem ElementKind.mem_symbols_expression {kind : ElementKind} {p : Nat → Expr} {jω : Expr}
    {name : String} :
    name ∈ (kind.expression p jω).symbols ↔
      (∃ i < kind.parameters.length, name ∈ (p i).symbols) ∨
        kind ≠ .resistor ∧ name ∈ jω.symbols := by
  -- Each formula is a row of its operands; some come twice, and `jω` stands among them.
  cases kind <;>
    simp [expression, parameters, definition, Expr.symbols, Nat.exists_lt_succ_right] <;> grind

theorem ExpressionOptions.symbols_jω (options : ExpressionOptions) :
    options.jω.symbols = [options.frequency] := by
  simp [jω, Expr.symbols]

namespace Element

variable {e : Element} {options : ExpressionOptions} {name : String}

theorem symbols_operand_of_substitute (h : options.substitute = true) (p : Parameter) :
    (e.operand options p).symbols = [] := by
  rw [operand, if_pos h, Expr.symbols]

theorem symbols_operand_of_not_substitute (h : options.substitute = false) (p : Parameter) :
    (e.operand options p).symbols = [e.parameterSymbol p.name] := by
  rw [operand, h, if_neg Bool.false_ne_true, Expr.symbols]

theorem WellFormed.length_parameters (he : e.WellFormed) :
    e.parameters.length = e.kind.parameters.length := by
  have hlength := congrArg List.length he.names
  rwa [List.length_map, List.length_map] at hlength

/-- The expression of an element has the symbols of all its parameters and, unless it is a
    resistor, the frequency. -/
theorem WellFormed.mem_symbols_expression (he : e.WellFormed) :
    name ∈ (e.expression options).symbols ↔
      (∃ p ∈ e.parameters, name ∈ (e.operand options p).symbols) ∨
        e.kind ≠ .resistor ∧ name = options.frequency := by
  rw [expression, ElementKind.mem_symbols_expression, options.symbols_jω, List.mem_singleton,
    ← he.length_parameters]
  refine or_congr_left ?_
  constructor
  · rintro ⟨i, hi, hname⟩
    refine ⟨e.parameters[i], List.getElem_mem hi, ?_⟩
    simpa [List.getD_eq_getElem?_getD, hi] using hname
  · rintro ⟨p, hp, hname⟩
    obtain ⟨i, hi, rfl⟩ := List.mem_iff_getElem.mp hp
    refine ⟨i, hi, ?_⟩
    simpa [List.getD_eq_getElem?_getD, hi] using hname

end Element

end CircuitCode
