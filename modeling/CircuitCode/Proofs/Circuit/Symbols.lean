import CircuitCode.Proofs.Circuit.Short
import CircuitCode.Proofs.Connection.Expression
import CircuitCode.Proofs.Element.Symbols

/-!
# Symbols of a circuit's expressions

With values for the parameters the expression of a circuit has at most the frequency as a symbol.
With symbols for them it has those in the table of parameter values, and the frequency too unless
all elements are resistors. So these values and a frequency suffice to evaluate it.
-/

namespace CircuitCode

open ComplexArithmetic

namespace Circuit

variable {c : Circuit}

theorem mem_parameterNames {name : String} :
    name ∈ c.parameterNames ↔
      ∃ e ∈ c.elements, ∃ p ∈ e.parameters, name = e.parameterSymbol p.name := by
  simp [parameterNames, parameterSymbols, eq_comm]

/-- The table of parameter values has the symbols of all parameters. -/
theorem mem_names_symbolValues {name : String} :
    name ∈ c.symbolValues.names ↔ name ∈ c.parameterNames :=
  SymbolTable.mem_names_ofList

theorem isSome_bindings_iff {R C : Type} [ComplexArithmetic R C] {name : String} :
    (c.bindings name : Option C).isSome ↔ name ∈ c.symbolValues.names := by
  rw [bindings, Option.isSome_map, SymbolTable.isSome_find?_iff]

/-- With values in the place of parameters only the frequency is left. -/
theorem mem_symbols_expression_substitute (hc : ∀ e ∈ c.elements, e.WellFormed) {s name : String}
    (hname : name ∈ (c.expression { frequency := s, substitute := true }).symbols) : name = s := by
  obtain ⟨e, he, hmem⟩ :=
    List.mem_flatMap.mp (Node.symbols_expression_subset _ c.root.toNode hname)
  rcases (hc e he).mem_symbols_expression.mp hmem with ⟨p, -, hp⟩ | ⟨-, rfl⟩
  · rw [Element.symbols_operand_of_substitute rfl] at hp
    cases hp
  · rfl

/-- With symbols in the place of parameters no branch is a literal zero, so none gets lost. -/
theorem mem_symbols_expression (hc : ∀ e ∈ c.elements, e.WellFormed) {s name : String} :
    name ∈ (c.expression { frequency := s }).symbols ↔
      name ∈ c.parameterNames ∨ name = s ∧ ∃ e ∈ c.elements, e.kind ≠ .resistor := by
  have hunshorted : c.root.toNode.Unshorted fun e => e.expression { frequency := s } :=
    Node.unshorted_of_leaves fun e he => Element.isZero_expression_symbols (hc e he)
  have hsymbols := Node.symbols_expression_of_unshorted hunshorted
  have helement : ∀ e ∈ c.elements, (name ∈ (e.expression { frequency := s }).symbols ↔
      (∃ p ∈ e.parameters, name = e.parameterSymbol p.name) ∨
        e.kind ≠ .resistor ∧ name = s) := by
    intro e he
    rw [(hc e he).mem_symbols_expression]
    refine or_congr_left (exists_congr fun p => and_congr_right fun _ => ?_)
    rw [Element.symbols_operand_of_not_substitute rfl, List.mem_singleton]
  rw [mem_parameterNames]
  show name ∈ (c.root.toNode.expression _).symbols ↔ _
  rw [hsymbols, List.mem_flatMap]
  constructor
  · rintro ⟨e, he, hmem⟩
    rcases (helement e he).mp hmem with hparameter | ⟨hkind, hname⟩
    · exact .inl ⟨e, he, hparameter⟩
    · exact .inr ⟨hname, e, he, hkind⟩
  · rintro (⟨e, he, hparameter⟩ | ⟨hname, e, he, hkind⟩)
    · exact ⟨e, he, (helement e he).mpr (.inl hparameter)⟩
    · exact ⟨e, he, (helement e he).mpr (.inr ⟨hkind, hname⟩)⟩

/-- The symbols of a circuit's expressions, whatever the frequency is called and whether or not a
    branch is short. Neither expression lacks a value once its symbols have theirs. -/
theorem freeSymbols_expression {c : Circuit} (hc : ∀ e ∈ c.elements, e.WellFormed) (s : String) :
    (∀ name ∈ (c.expression { frequency := s, substitute := true }).freeSymbols, name = s) ∧
      (∀ name, name ∈ (c.expression { frequency := s }).freeSymbols ↔
        name ∈ c.symbolValues.names ∨ name = s ∧ ∃ e ∈ c.elements, e.kind ≠ .resistor) ∧
      ∀ {R C : Type} [ComplexArithmetic R C] (f : R),
        (∃ z : C, (c.expression { frequency := s, substitute := true }).evaluateAt s f = .ok z) ∧
        ∃ z : C, (c.expression { frequency := s }).evaluate
          (Expr.bind s (ofReal f) c.bindings) = .ok z := by
  refine ⟨?_, ?_, ?_⟩
  · intro name hname
    exact mem_symbols_expression_substitute hc (Expr.mem_freeSymbols.mp hname)
  · intro name
    rw [Expr.mem_freeSymbols, mem_symbols_expression hc, mem_names_symbolValues]
  · intro R C _ f
    constructor
    · rw [Expr.evaluateAt, Expr.exists_evaluate_eq_ok_iff]
      intro name hname
      rw [mem_symbols_expression_substitute hc hname, Expr.bind, if_pos rfl]
      rfl
    · rw [Expr.exists_evaluate_eq_ok_iff]
      intro name hname
      by_cases hs : name = s
      · rw [Expr.bind, if_pos hs]
        rfl
      · rw [Expr.bind, if_neg hs, isSome_bindings_iff, mem_names_symbolValues]
        exact ((mem_symbols_expression hc).mp hname).resolve_right fun h => hs h.1

/-- A resistor with the value zero in parallel with a capacitor. -/
def shortedCapacitor : Circuit := (parse "(R\x7bR=0\x7dC)").toOption.getD ⟨⟨.series, []⟩⟩

theorem parse_shortedCapacitor : parse "(R\x7bR=0\x7dC)" = .ok shortedCapacitor := by
  refine parse_eq_ok_getD ?_ _
  decide +kernel

/-- The capacitor is shorted where values stand for parameters, and its symbol is the name of the
    frequency. Without values no symbol is missing. -/
theorem freeSymbols_expression_shortedCapacitor :
    (∀ name ∈ (shortedCapacitor.expression
        { frequency := "C_C_1", substitute := true }).freeSymbols, name = "C_C_1") ∧
      "C_C_1" ∈ (shortedCapacitor.expression { frequency := "C_C_1" }).freeSymbols ∧
      "R_R_1" ∈ (shortedCapacitor.expression { frequency := "C_C_1" }).freeSymbols ∧
      "f" ∉ (shortedCapacitor.expression { frequency := "C_C_1" }).freeSymbols ∧
      ∃ z : MachineComplex, (shortedCapacitor.expression { frequency := "C_C_1" }).evaluate
        (Expr.bind "C_C_1" (ofReal (1 : MachineReal)) shortedCapacitor.bindings) = .ok z := by
  obtain ⟨hsubstituted, hsymbols, hvalue⟩ :=
    freeSymbols_expression (wellFormed_of_parse parse_shortedCapacitor) "C_C_1"
  have hnames : shortedCapacitor.symbolValues.names = ["C_C_1", "R_R_1"] := by
    decide +kernel
  rw [hnames] at hsymbols
  refine ⟨hsubstituted, (hsymbols _).mpr (.inl (by decide)), (hsymbols _).mpr (.inl (by decide)),
    ?_, (hvalue 1).2⟩
  intro hname
  rcases (hsymbols _).mp hname with hmem | ⟨heq, -⟩
  · exact absurd hmem (by decide)
  · exact absurd heq (by decide)

end Circuit

end CircuitCode
