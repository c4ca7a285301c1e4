import CircuitCode.Complex.Arithmetic
import CircuitCode.Number.MachineReal

/-!
# Complex numbers on the machine

The arithmetic in which impedances are computed: pairs of machine numbers, with the formulas for
each operation spelled out, because the rounding of a result depends on them.
-/

namespace CircuitCode

/-- A complex number in Cartesian form. -/
structure MachineComplex where
  re : MachineReal
  im : MachineReal
deriving Inhabited

namespace MachineComplex

def add (z w : MachineComplex) : MachineComplex := ⟨z.re + w.re, z.im + w.im⟩

def mul (z w : MachineComplex) : MachineComplex :=
  ⟨z.re * w.re - z.im * w.im, z.re * w.im + z.im * w.re⟩

def normSq (z : MachineComplex) : MachineReal := z.re * z.re + z.im * z.im

def div (z w : MachineComplex) : MachineComplex :=
  let n := normSq w
  ⟨(z.re * w.re + z.im * w.im) / n, (z.im * w.re - z.re * w.im) / n⟩

def neg (z : MachineComplex) : MachineComplex := ⟨-z.re, -z.im⟩

def inv (z : MachineComplex) : MachineComplex :=
  let n := normSq z
  ⟨z.re / n, -z.im / n⟩

def scale (z : MachineComplex) (x : MachineReal) : MachineComplex := ⟨z.re * x, z.im * x⟩

def addTo (x : MachineReal) (z : MachineComplex) : MachineComplex := ⟨x + z.re, z.im⟩

def subFrom (x : MachineReal) (z : MachineComplex) : MachineComplex := ⟨x - z.re, 0 - z.im⟩

def divInto (x : MachineReal) (z : MachineComplex) : MachineComplex :=
  let n := normSq z
  ⟨x * z.re / n, 0 - x * z.im / n⟩

/-- The modulus and the argument. -/
def toPolar (z : MachineComplex) : MachineReal × MachineReal :=
  (MachineReal.hypot z.re z.im, MachineReal.atan2 z.im z.re)

def ofPolar (modulus argument : MachineReal) : MachineComplex :=
  ⟨modulus * argument.cos, modulus * argument.sin⟩

/-- The principal square root. On the two axes it is computed from the one part that is not zero,
    and the imaginary part takes the sign of that of `z`. -/
def sqrt (z : MachineComplex) : MachineComplex :=
  if z.im == 0 then
    if z.re.isNegative then ⟨0, (-z.re).sqrt.withSignOf z.im⟩
    else ⟨z.re.sqrt, z.im⟩
  else if z.re == 0 then
    let x := (z.im.abs / 2).sqrt
    ⟨x, x.withSignOf z.im⟩
  else
    let (modulus, argument) := z.toPolar
    ofPolar modulus.sqrt (argument / 2)

/-- The exponential. An infinite real part and an angle that is not a finite number leave the
    direction undetermined; zero, and an infinite value on the real axis, are still well defined. -/
def exp (z : MachineComplex) : MachineComplex :=
  if z.re.isInfinite && z.re.isNegative && !z.im.isFinite then ⟨0, 0⟩
  else if z.re.isInfinite && !z.re.isNegative && (z.im == 0 || !z.im.isFinite) then
    ⟨z.re, if z.im.isInfinite then .nan false else z.im⟩
  else if z.re.isNaN && z.im == 0 then z
  else ofPolar z.re.exp z.im

def log (z : MachineComplex) : MachineComplex :=
  let (modulus, argument) := z.toPolar
  ⟨modulus.log, argument⟩

def powReal (z : MachineComplex) (x : MachineReal) : MachineComplex :=
  if x == 0 then ⟨1, 0⟩
  else
    let (modulus, argument) := z.toPolar
    ofPolar (modulus.pow x) (argument * x)

def pow (z w : MachineComplex) : MachineComplex :=
  if w.re == 0 && w.im == 0 then ⟨1, 0⟩ else exp (mul w (log z))

end MachineComplex

instance : ComplexArithmetic MachineReal MachineComplex where
  ofNumber := MachineReal.ofNumber
  realMul := fun x y => x * y
  realDiv := fun x y => x / y
  realSqrt := MachineReal.sqrt
  realEq := fun x y => x == y
  realLt := MachineReal.lt
  ofParts := .mk
  re := MachineComplex.re
  im := MachineComplex.im
  add := MachineComplex.add
  mul := MachineComplex.mul
  div := MachineComplex.div
  neg := MachineComplex.neg
  inv := MachineComplex.inv
  scale := MachineComplex.scale
  addTo := MachineComplex.addTo
  subFrom := MachineComplex.subFrom
  divInto := MachineComplex.divInto
  sqrt := MachineComplex.sqrt
  exp := MachineComplex.exp
  powReal := MachineComplex.powReal
  pow := MachineComplex.pow

end CircuitCode
