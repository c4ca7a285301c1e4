import CircuitCode.Builder.Basic
import CircuitCode.Expr.Evaluation
import CircuitCode.Parsing.Error

/-!
# Errors

All ways in which an operation on circuits can fail.
-/

namespace CircuitCode

/-- An error of any operation. -/
inductive Error where
  | parse (cause : ParseError)
  | element (cause : ElementError)
  | connection (cause : ConnectionError)
  | builder (cause : BuilderError)
  | evaluation (cause : EvaluationError)
deriving DecidableEq

def Error.message : Error → String
  | parse cause => cause.message
  | element cause => cause.message
  | connection cause => cause.message
  | builder cause => cause.message
  | evaluation cause => cause.message

end CircuitCode
