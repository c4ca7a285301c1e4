import CircuitCode.Connection.Basic
import CircuitCode.Complex.Arithmetic
import CircuitCode.Expr.Basic

/-!
# Impedance of a connection

The impedance of a tree, given the impedances of its leaves, and the same as an expression. The
impedances of a series add; those of a parallel connection are the inverse of the sum of the
inverses, unless a branch without impedance shorts it.
-/

namespace CircuitCode

namespace ComplexArithmetic

variable {R C : Type} [ComplexArithmetic R C]

/-- The impedance of branches in parallel. -/
def parallel (impedances : List C) : C :=
  if impedances.any isZero then zero else inv (sum (impedances.map inv))

/-- The impedance of a connection from those of its children. -/
def combine : ConnectionKind → List C → C
  | .series, impedances => sum impedances
  | .parallel, impedances => parallel impedances

end ComplexArithmetic

namespace Expr

/-- The expression for branches in parallel. Only a literal zero counts as a short. -/
def parallel (branches : List Expr) : Expr :=
  if branches.any isZero then number 0 else (sum (branches.map recip)).recip

/-- The expression for a connection from those of its children. -/
def combine : ConnectionKind → List Expr → Expr
  | .series, terms => sum terms
  | .parallel, branches => parallel branches

end Expr

variable {R C α : Type} [ComplexArithmetic R C]

/-- The impedance of a tree whose leaves have the given impedances. -/
def Node.impedance (leaf : α → C) : Node α → C := fold leaf ComplexArithmetic.combine

/-- The expression for the impedance of a tree. -/
def Node.expression (leaf : α → Expr) : Node α → Expr := fold leaf Expr.combine

end CircuitCode
