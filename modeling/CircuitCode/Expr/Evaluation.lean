import CircuitCode.Complex.Arithmetic
import CircuitCode.Expr.Basic
import CircuitCode.SymbolTable

/-!
# Evaluation of expressions

An expression has a value once each of its symbols has one; otherwise evaluation names the first
unbound symbol in reading order. Operands are evaluated from left to right, a base before its
exponent.
-/

namespace CircuitCode

/-- Why an expression has no value. -/
inductive EvaluationError where
  | unboundSymbol (name : String)
deriving DecidableEq, Repr

def EvaluationError.message : EvaluationError → String
  | unboundSymbol name => "symbol '" ++ name ++ "' has no value bound to it"

namespace Expr

variable {R C : Type} [ComplexArithmetic R C]

mutual

/-- The value of an expression under an assignment of values to symbols. -/
def evaluate (bindings : String → Option C) : Expr → Except EvaluationError C
  | number x => .ok (ComplexArithmetic.number x)
  | imaginary => .ok ComplexArithmetic.imaginary
  | symbol name =>
    match bindings name with
    | some z => .ok z
    | none => .error (.unboundSymbol name)
  | sum ts => do return ComplexArithmetic.sum (← evaluateAll bindings ts)
  | product fs => do return ComplexArithmetic.product (← evaluateAll bindings fs)
  | power base exponent => do
    let base ← evaluate bindings base
    let exponent ← evaluate bindings exponent
    return ComplexArithmetic.power base exponent
  | tanh argument => do return ComplexArithmetic.tanh (← evaluate bindings argument)
  | coth argument => do return ComplexArithmetic.coth (← evaluate bindings argument)

/-- The values of operands, up to the first that has none. -/
def evaluateAll (bindings : String → Option C) : List Expr → Except EvaluationError (List C)
  | [] => .ok []
  | e :: es => do
    let z ← evaluate bindings e
    let zs ← evaluateAll bindings es
    return z :: zs

end

/-- The bindings with one name bound anew. -/
def bind (name : String) (z : C) (bindings : String → Option C) : String → Option C :=
  fun other => if other = name then some z else bindings other

/-- The value of an expression whose only free symbol is `name`. -/
def evaluateAt (e : Expr) (name : String) (x : R) : Except EvaluationError C :=
  e.evaluate (bind name (ComplexArithmetic.ofReal x) fun _ => none)

/-- The different symbols of an expression, in order. -/
def freeSymbols (e : Expr) : List String := sortedNames e.symbols

end Expr

end CircuitCode
