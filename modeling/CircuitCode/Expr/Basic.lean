import CircuitCode.Number.Rounding

/-!
# Expressions

Closed-form expressions over complex numbers. Sums and products have any number of operands, a
quotient is a product with a power of exponent `-1`, and nothing is simplified beyond merging a
sum into a sum and a product into a product.
-/

namespace CircuitCode

/-- A closed-form expression. -/
inductive Expr where
  | number (value : Number)
  | imaginary
  | symbol (name : String)
  | sum (terms : List Expr)
  | product (factors : List Expr)
  | power (base exponent : Expr)
  | tanh (argument : Expr)
  | coth (argument : Expr)
deriving Inhabited

namespace Expr

/-- The terms of a sum; any other expression is a sum of one term. -/
def terms : Expr → List Expr
  | sum ts => ts
  | e => [e]

/-- The factors of a product; any other expression is a product of one factor. -/
def factors : Expr → List Expr
  | product fs => fs
  | e => [e]

/-- The sum of two expressions, in which sums are merged. -/
protected def add (left right : Expr) : Expr := sum (left.terms ++ right.terms)

/-- The product of two expressions, in which products are merged. -/
protected def mul (left right : Expr) : Expr := product (left.factors ++ right.factors)

def recip (e : Expr) : Expr := power e (number (-1))

def sqrt (e : Expr) : Expr := power e (number 0.5)

instance : Add Expr := ⟨Expr.add⟩

instance : Mul Expr := ⟨Expr.mul⟩

instance : Div Expr := ⟨fun left right => left * right.recip⟩

/-- Whether the expression is the literal zero. -/
def isZero : Expr → Bool
  | number value => value == 0
  | _ => false

mutual

/-- The symbols in reading order, each as often as it occurs. -/
def symbols : Expr → List String
  | number _ => []
  | imaginary => []
  | symbol name => [name]
  | sum ts => symbolsOf ts
  | product fs => symbolsOf fs
  | power base exponent => base.symbols ++ exponent.symbols
  | tanh argument => argument.symbols
  | coth argument => argument.symbols

/-- The symbols of operands, one operand after the other. -/
def symbolsOf : List Expr → List String
  | [] => []
  | e :: es => e.symbols ++ symbolsOf es

end

mutual

/-- The expression with `value` in place of every occurrence of the symbol `name`. -/
def substitute (e : Expr) (name : String) (value : Expr) : Expr :=
  match e with
  | number x => number x
  | imaginary => imaginary
  | symbol other => if other = name then value else symbol other
  | sum ts => sum (substituteIn ts name value)
  | product fs => product (substituteIn fs name value)
  | power base exponent =>
    power (base.substitute name value) (exponent.substitute name value)
  | tanh argument => tanh (argument.substitute name value)
  | coth argument => coth (argument.substitute name value)

/-- Substitution in each operand. -/
def substituteIn (es : List Expr) (name : String) (value : Expr) : List Expr :=
  match es with
  | [] => []
  | e :: es => e.substitute name value :: substituteIn es name value

end

theorem symbolsOf_eq_flatMap (es : List Expr) : symbolsOf es = es.flatMap symbols := by
  induction es with
  | nil => rfl
  | cons e es ih => simp [symbolsOf, ih]

theorem substituteIn_eq_map (es : List Expr) (name : String) (value : Expr) :
    substituteIn es name value = es.map (fun e => e.substitute name value) := by
  induction es with
  | nil => rfl
  | cons e es ih => simp [substituteIn, ih]

end Expr

end CircuitCode
