import CircuitCode.Circuit.Basic
import CircuitCode.Connection.Evaluation
import CircuitCode.Element.Formula
import CircuitCode.Expr.Evaluation

/-!
# Impedance of a circuit

The impedance of a circuit at a frequency, as a number and as an expression. In the expression a
parameter is its value or a symbol made of its name and the label of its element; the table
`Circuit.symbolValues` gives the values of these symbols.
-/

namespace CircuitCode

section

variable {R C : Type} [ComplexArithmetic R C]

/-- The impedance of a connection of elements at a frequency in hertz. -/
def Connection.impedance (c : Connection Element) (frequency : R) : C :=
  c.toNode.impedance fun e => e.impedance frequency

/-- The impedance of a circuit at a frequency in hertz. -/
def Circuit.impedance (c : Circuit) (frequency : R) : C := c.root.impedance frequency

end

/-- The impedance of a connection of elements as an expression. -/
def Connection.expression (c : Connection Element) (options : ExpressionOptions) : Expr :=
  c.toNode.expression fun e => e.expression options

namespace Circuit

/-- The impedance of a circuit as an expression. -/
def expression (c : Circuit) (options : ExpressionOptions) : Expr := c.root.expression options

/-- The symbols of an element's parameters with their values. -/
def parameterSymbols (e : Element) : List (String × Number) :=
  e.parameters.map fun p => (e.parameterSymbol p.name, p.value)

/-- The values of the parameters' symbols. Of several for one symbol the last one counts. -/
def symbolValues (c : Circuit) : SymbolTable Number :=
  SymbolTable.ofList (c.elements.flatMap parameterSymbols)

/-- The table of parameter values as an assignment. -/
def bindings {R C : Type} [ComplexArithmetic R C] (c : Circuit) : String → Option C :=
  fun name => (c.symbolValues.find? name).map ComplexArithmetic.number

end Circuit

/-- The expression with values in place of the symbols of a table, one after the other. -/
def Expr.substituteAll (e : Expr) (table : SymbolTable Number) : Expr :=
  table.foldl (fun e entry => e.substitute entry.1 (.number entry.2)) e

end CircuitCode
