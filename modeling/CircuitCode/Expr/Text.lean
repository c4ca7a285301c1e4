import CircuitCode.Expr.Basic
import CircuitCode.Number.Text

/-!
# Texts of expressions

Expressions are written with `+`, `*`, `^` and `1/`. An operand of a product or of a power is in
parentheses unless it is an atom; the terms of a sum never are.
-/

namespace CircuitCode

namespace Expr

/-- Whether the expression needs no parentheses as an operand. -/
def isAtom : Expr → Bool
  | number value => decide (0 ≤ value)
  | imaginary | symbol _ | tanh _ | coth _ => true
  | sum _ | product _ | power _ _ => false

/-- Whether the expression is the literal `-1`, the exponent of a reciprocal. -/
def isMinusOne : Expr → Bool
  | number value => value == -1
  | _ => false

/-- `text` as an operand. -/
def enclose (atom : Bool) (text : String) : String :=
  if atom then text else "(" ++ text ++ ")"

mutual

/-- The text of an expression. -/
def text : Expr → String
  | number value => value.plain
  | imaginary => "j"
  | symbol name => name
  | sum ts => String.intercalate " + " (texts ts)
  | product fs => String.intercalate "*" (operandTexts fs)
  | power base exponent =>
    if exponent.isMinusOne then "1/" ++ enclose base.isAtom base.text
    else enclose base.isAtom base.text ++ "^" ++ enclose exponent.isAtom exponent.text
  | tanh argument => "tanh(" ++ argument.text ++ ")"
  | coth argument => "coth(" ++ argument.text ++ ")"

/-- The texts of the terms of a sum. -/
def texts : List Expr → List String
  | [] => []
  | e :: es => e.text :: texts es

/-- The texts of the factors of a product. -/
def operandTexts : List Expr → List String
  | [] => []
  | e :: es => enclose e.isAtom e.text :: operandTexts es

end

end Expr

end CircuitCode
