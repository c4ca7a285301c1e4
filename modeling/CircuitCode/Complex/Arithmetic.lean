import CircuitCode.Number.Rounding

/-!
# Complex arithmetic

`ComplexArithmetic R C` lists what impedances need of complex numbers `C` over real numbers `R`.
Impedance formulas and expressions are evaluated in any such system: on machine numbers, where a
sum and a product depend on the order of their operands' rounding, or on exact numbers. Mixed
operations on a real and a complex number are operations of their own, since on machine numbers
they differ from those on two complex numbers.
-/

namespace CircuitCode

/-- Complex numbers `C` over real numbers `R`. -/
class ComplexArithmetic (R : outParam Type) (C : Type) where
  /-- The real number that a stored number stands for. -/
  ofNumber : Number → R
  realMul : R → R → R
  realDiv : R → R → R
  realSqrt : R → R
  realEq : R → R → Bool
  realLt : R → R → Bool
  /-- The complex number with the given real and imaginary parts. -/
  ofParts : R → R → C
  re : C → R
  im : C → R
  add : C → C → C
  mul : C → C → C
  div : C → C → C
  neg : C → C
  inv : C → C
  /-- A complex number times a real one. -/
  scale : C → R → C
  /-- A real number plus a complex one. -/
  addTo : R → C → C
  /-- A real number minus a complex one. -/
  subFrom : R → C → C
  /-- A real number divided by a complex one. -/
  divInto : R → C → C
  sqrt : C → C
  exp : C → C
  /-- A power with a real exponent. -/
  powReal : C → R → C
  pow : C → C → C

namespace ComplexArithmetic

variable {R C : Type} [ComplexArithmetic R C]

def ofReal (x : R) : C := ofParts x (ofNumber C 0)

/-- The complex number that a stored number stands for. -/
def number (x : Number) : C := ofReal (ofNumber C x)

def zero : C := number 0

def one : C := number 1

/-- The imaginary unit. -/
def imaginary : C := ofParts (ofNumber C 0) (ofNumber C 1)

def isZero (z : C) : Bool :=
  realEq C (re z) (ofNumber C 0) && realEq C (im z) (ofNumber C 0)

/-- The sum from left to right. -/
def sum (terms : List C) : C := terms.foldl add zero

/-- The product from left to right. -/
def product (factors : List C) : C := factors.foldl mul one

/-- The angular frequency of one hertz, `2π`. -/
def twoPi : Number := 6.283185307179586

/-- The term `jω` at a frequency in hertz. -/
def jω (frequency : R) : C :=
  ofParts (ofNumber C 0) (realMul C (ofNumber C twoPi) frequency)

/-- `exp (-2z)`, which does not overflow in the right half plane. -/
def decay (z : C) : C := exp (scale z (ofNumber C (-2)))

/-- `-f (-z)` in the left half plane and `f z` elsewhere: the odd function that agrees with `f`
    where no exponential overflows. -/
def odd (f : C → C) (z : C) : C :=
  if realLt C (re z) (ofNumber C 0) then neg (f (neg z)) else f z

/-- The hyperbolic tangent. -/
def tanh (z : C) : C :=
  odd (fun w =>
    let e := decay w
    div (subFrom (ofNumber C 1) e) (addTo (ofNumber C 1) e)) z

/-- The hyperbolic cotangent. -/
def coth (z : C) : C :=
  odd (fun w =>
    let e := decay w
    div (addTo (ofNumber C 1) e) (subFrom (ofNumber C 1) e)) z

/-- A power whose exponent is an evaluated expression. A real exponent goes through `powReal`, and
    the exponents `-1`, `1/2` and `1` are the inverse, the square root and the base itself. -/
def power (base exponent : C) : C :=
  if !realEq C (im exponent) (ofNumber C 0) then pow base exponent
  else if realEq C (re exponent) (ofNumber C (-1)) then inv base
  else if realEq C (re exponent) (ofNumber C 0.5) then sqrt base
  else if realEq C (re exponent) (ofNumber C 1) then base
  else powReal base (re exponent)

end ComplexArithmetic

end CircuitCode
