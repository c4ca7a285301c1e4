import CircuitCode.Complex.Arithmetic
import CircuitCode.Element.Basic
import CircuitCode.Expr.Basic

/-!
# Impedance formulas

The impedance of each kind of element, once as a computation in a system of complex numbers and
once as an expression. Both take the parameters in the order of the kind's definition and the
term `jω`. They are written apart from each other: the computation groups its factors for
accuracy, the expression for readability.
-/

namespace CircuitCode

namespace ElementKind

open ComplexArithmetic in
/-- The impedance of an element of the kind, from its parameter values. -/
def impedance {R C : Type} [ComplexArithmetic R C] (kind : ElementKind) (p : Nat → R) (jω : C) :
    C :=
  let one := ofNumber C 1
  match kind with
  | resistor => ofReal (p 0)
  | capacitor => inv (scale jω (p 0))
  | inductor => scale jω (p 0)
  | modifiedInductor => scale (powReal jω (p 1)) (p 0)
  | constantPhase => inv (scale (powReal jω (p 1)) (p 0))
  | warburg => inv (scale (sqrt jω) (p 0))
  | warburgShort => div (tanh (powReal (scale jω (p 1)) (p 2))) (scale (powReal jω (p 2)) (p 0))
  | warburgOpen => div (coth (powReal (scale jω (p 1)) (p 2))) (scale (powReal jω (p 2)) (p 0))
  | deLevie =>
    let root := sqrt (addTo one (scale (powReal jω (p 3)) (p 2)))
    let ratio := realSqrt C (realDiv C (p 0) (p 1))
    let mean := realSqrt C (realMul C (p 0) (p 1))
    div (scale (coth (scale root (realMul C (p 4) ratio))) mean) root
  | gerischer => inv (scale (powReal (addTo (p 1) jω) (p 2)) (p 0))
  | havriliakNegami =>
    div (powReal (addTo one (powReal (scale jω (p 1)) (p 2))) (p 3)) (scale jω (p 0))
  | havriliakNegamiAlternative =>
    divInto (p 0) (powReal (addTo one (powReal (scale jω (p 1)) (p 2))) (p 3))
  | kramersKronig => divInto (p 0) (addTo one (scale jω (p 1)))

open CircuitCode.Expr in
/-- The impedance of an element of the kind as an expression in its parameters. -/
def expression (kind : ElementKind) (p : Nat → Expr) (jω : Expr) : Expr :=
  match kind with
  | resistor => p 0
  | capacitor => (p 0 * jω).recip
  | inductor => p 0 * jω
  | modifiedInductor => p 0 * power jω (p 1)
  | constantPhase => (p 0 * power jω (p 1)).recip
  | warburg => (p 0 * jω.sqrt).recip
  | warburgShort => tanh (power (p 1 * jω) (p 2)) / (p 0 * power jω (p 2))
  | warburgOpen => coth (power (p 1 * jω) (p 2)) / (p 0 * power jω (p 2))
  | deLevie =>
    let root := (number 1 + p 2 * power jω (p 3)).sqrt
    let ratio := (p 0 / p 1).sqrt
    (p 0 * p 1).sqrt * coth (p 4 * ratio * root) / root
  | gerischer => (p 0 * power (p 1 + jω) (p 2)).recip
  | havriliakNegami => power (number 1 + power (jω * p 1) (p 2)) (p 3) / (jω * p 0)
  | havriliakNegamiAlternative => p 0 / power (number 1 + power (jω * p 1) (p 2)) (p 3)
  | kramersKronig => p 0 / (number 1 + jω * p 1)

end ElementKind

/-- The name of the frequency in an expression, unless another one is chosen. -/
def frequencySymbol : String := "f"

/-- How an expression for an impedance is formed. -/
structure ExpressionOptions where
  /-- The name of the frequency. -/
  frequency : String := frequencySymbol
  /-- Whether parameters appear as their values instead of as symbols. -/
  substitute : Bool := false

/-- The term `jω`. -/
def ExpressionOptions.jω (options : ExpressionOptions) : Expr :=
  Expr.imaginary * Expr.number ComplexArithmetic.twoPi * Expr.symbol options.frequency

namespace Element

/-- The impedance of an element at a frequency in hertz. -/
def impedance {R C : Type} [ComplexArithmetic R C] (e : Element) (frequency : R) : C :=
  let values := e.parameters.map fun p => p.value
  e.kind.impedance (fun i => ComplexArithmetic.ofNumber C (values.getD i 0))
    (ComplexArithmetic.jω frequency)

/-- How a parameter appears in an expression. -/
def operand (e : Element) (options : ExpressionOptions) (p : Parameter) : Expr :=
  if options.substitute then .number p.value else .symbol (e.parameterSymbol p.name)

/-- The impedance of an element as an expression. -/
def expression (e : Element) (options : ExpressionOptions) : Expr :=
  let operands := e.parameters.map (e.operand options)
  e.kind.expression (fun i => operands.getD i (.number 0)) options.jω

end Element

end CircuitCode
