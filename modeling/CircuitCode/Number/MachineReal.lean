import CircuitCode.Number.Bits

/-!
# Real numbers on the machine

Impedances are computed on machine numbers; values that are stored, compared and written are of
type `Number`. A `MachineReal` is a `Float`, except that the value which is not a number has a
sign here: `Float` has one such value and shows no sign of it, but the square root of a complex
number depends on it. An operation passes on a value that is not a number with its sign, only
`neg` turning it, and an invalid operation on proper numbers sets the sign.
-/

namespace CircuitCode

-- Powers are those of the core library, whatever is imported besides.
attribute [local instance (2000)] instPowNat

/-- A machine number. -/
inductive MachineReal where
  | nan (negative : Bool)
  | value (x : Float) (isNumber : x.isNaN = false)
deriving Inhabited

namespace MachineReal

/-- The result of an operation on proper numbers. -/
def ofFloat (x : Float) : MachineReal :=
  if h : x.isNaN = false then value x h else nan true

instance (n : Nat) : OfNat MachineReal n := ⟨ofFloat (Float.ofNat n)⟩

/-- The machine number that a stored number stands for. -/
def ofNumber : Number → MachineReal
  | .nan negative => nan negative
  | number => ofFloat (Float.ofBits number.toBits)

def toNumber : MachineReal → Number
  | nan negative => .nan negative
  | value x _ => Number.ofBits x.toBits

/-- An operation on one number. -/
def lift (f : Float → Float) : MachineReal → MachineReal
  | nan negative => nan negative
  | value x _ => ofFloat (f x)

/-- An operation on two numbers. Of two values that are not numbers the first is passed on. -/
def lift₂ (f : Float → Float → Float) : MachineReal → MachineReal → MachineReal
  | nan negative, _ => nan negative
  | value _ _, nan negative => nan negative
  | value x _, value y _ => ofFloat (f x y)

instance : Add MachineReal := ⟨lift₂ Float.add⟩

instance : Sub MachineReal := ⟨lift₂ Float.sub⟩

instance : Mul MachineReal := ⟨lift₂ Float.mul⟩

instance : Div MachineReal := ⟨lift₂ Float.div⟩

/-- The same number with the other sign. -/
def neg : MachineReal → MachineReal
  | nan negative => nan (!negative)
  | value x _ => ofFloat x.neg

instance : Neg MachineReal := ⟨neg⟩

/-- The number without its sign. -/
def abs : MachineReal → MachineReal
  | nan _ => nan false
  | value x _ => ofFloat x.abs

def sqrt : MachineReal → MachineReal := lift Float.sqrt

def exp : MachineReal → MachineReal := lift Float.exp

def log : MachineReal → MachineReal := lift Float.log

def sin : MachineReal → MachineReal := lift Float.sin

def cos : MachineReal → MachineReal := lift Float.cos

def atan2 : MachineReal → MachineReal → MachineReal := lift₂ Float.atan2

def pow : MachineReal → MachineReal → MachineReal := lift₂ Float.pow

/-- A comparison. Nothing holds of a value that is not a number. -/
def compareWith (holds : Float → Float → Bool) : MachineReal → MachineReal → Bool
  | value x _, value y _ => holds x y
  | _, _ => false

/-- Equality of values: the two zeros are equal. -/
instance : BEq MachineReal := ⟨compareWith fun x y => x == y⟩

/-- The order of the values. -/
def lt : MachineReal → MachineReal → Bool := compareWith fun x y => x < y

def isNaN : MachineReal → Bool
  | nan _ => true
  | value _ _ => false

def isInfinite : MachineReal → Bool
  | nan _ => false
  | value x _ => x.isInf

def isFinite : MachineReal → Bool
  | nan _ => false
  | value x _ => x.isFinite

/-- Whether the sign is set; it is for a negative zero. -/
def isNegative : MachineReal → Bool
  | nan negative => negative
  | value x _ => x.toBits.toNat / 2 ^ (63 : Nat) == 1

/-- `magnitude` with the sign of `x`. -/
def withSignOf (magnitude x : MachineReal) : MachineReal :=
  if x.isNegative then -magnitude else magnitude

/-- The hypotenuse over two finite legs. Both are first brought near one by a power of two, so
    their squares neither overflow nor vanish. -/
def hypotFinite (a b : Float) : Float :=
  let larger := max a.abs b.abs
  if larger == 0 then larger
  else
    let places := larger.frExp.2
    let x := a.scaleB (-places)
    let y := b.scaleB (-places)
    (x * x + y * y).sqrt.scaleB places

/-- The length of the hypotenuse. It is infinite over an infinite leg, whatever the other is. -/
def hypot (a b : MachineReal) : MachineReal :=
  if a.isInfinite then a.abs
  else if b.isInfinite then b.abs
  else lift₂ hypotFinite a b

end MachineReal

end CircuitCode
