import CircuitCode.Number.Rounding

/-!
# Decimal digits of a number

`Digits` is a run of decimal digits and the power of ten of the first one. `Digits.shortest` finds
the fewest digits that read back to the same number, and of those the nearest to it;
`Digits.rounded` gives a fixed count of digits of the exact value, a half going to the even
neighbour. Both work on a count of units of `2^-1074` in exact arithmetic.
-/

namespace CircuitCode

-- Powers are those of the core library, whatever is imported besides.
attribute [local instance (2000)] instPowNat

/-- Decimal digits, of which the first stands at `10^exponent`. -/
structure Digits where
  digits : List Char
  exponent : Int
deriving DecidableEq, Repr

namespace Digits

/-- `units * 2^-1074 * 10^(-place)` as a quotient of two natural numbers. -/
def scaled (units : Nat) (place : Int) : Nat × Nat :=
  match place with
  | .ofNat power => (units, 2 ^ (1074 : Nat) * 10 ^ power)
  | .negSucc power => (units * 10 ^ (power + 1), 2 ^ (1074 : Nat))

/-- The power of ten of the leading digit of a positive quotient. -/
def leadingPlace (num den : Nat) : Int :=
  if den ≤ num then (Nat.toDigits 10 (num / den)).length - 1
  else -(Nat.toDigits 10 ((den - 1) / num)).length

/-- `digits` written out, the last of them standing at `10^place`. -/
def ofNat (digits : Nat) (place : Int) : Digits :=
  let run := Nat.toDigits 10 digits
  ⟨run, place + run.length - 1⟩

/-- The exact value rounded to `decimals` digits after the first. -/
def rounded (units decimals : Nat) : Digits :=
  if units = 0 then ⟨List.replicate (decimals + 1) '0', 0⟩
  else
    let place := leadingPlace units (2 ^ (1074 : Nat)) - decimals
    let (num, den) := scaled units place
    let digits := roundHalfEven num den
    if digits = 10 ^ (decimals + 1) then ofNat (10 ^ decimals) (place + 1)
    else ofNat digits place

/-- The distance from a finite number to the next one above it. -/
def gap (units : Nat) : Nat := 2 ^ (units.log2 - 52)

/-- Whether `candidate * 10^place` lies strictly between the points half way to the neighbours of
    a number, or on one of them if the number's significand is even: then it reads back as that
    number. Below a power of two the neighbour is half as far. All is counted in quarter units. -/
def readsBack (units candidate : Nat) (place : Int) : Bool :=
  let step := gap units
  let below := if units = 2 ^ (52 : Nat) * step ∧ 1 < step then step else 2 * step
  let (value, unit) :=
    match place with
    | .ofNat power => (4 * candidate * 2 ^ (1074 : Nat) * 10 ^ power, 1)
    | .negSucc power => (4 * candidate * 2 ^ (1074 : Nat), 10 ^ (power + 1))
  let low := (4 * units - below) * unit
  let high := (4 * units + 2 * step) * unit
  if units / step % 2 = 0 then decide (low ≤ value ∧ value ≤ high)
  else decide (low < value ∧ value < high)

/-- The nearest multiple of `10^place` that reads back as the number, a tie going up. Only the two
    neighbours of the number on that grid can be nearest. -/
def onGrid (units : Nat) (place : Int) : Option Nat :=
  let (num, den) := scaled units place
  let floor := num / den
  match readsBack units floor place, readsBack units (floor + 1) place with
  | true, true => some (if 2 * (num % den) < den then floor else floor + 1)
  | true, false => some floor
  | false, true => some (floor + 1)
  | false, false => none

/-- Tries `count` grids from `10^place` down, each ten times finer than the last. -/
def search (units : Nat) : (count : Nat) → (place : Int) → Digits
  | 0, place =>
    let (num, den) := scaled units place
    ofNat (roundHalfEven num den) place
  | count + 1, place =>
    match onGrid units place with
    | some digits => ofNat digits place
    | none => search units count (place - 1)

/-- The fewest digits that read back as the number, and of those the nearest to it. Seventeen
    digits are always enough, so the search starts one place above the leading digit and tries
    that many grids more. -/
def shortest (units : Nat) : Digits :=
  if units = 0 then ⟨['0'], 0⟩
  else search units 18 (leadingPlace units (2 ^ (1074 : Nat)) + 1)

/-- How an exponent is written. -/
structure ExponentStyle where
  mark : Char
  /-- Whether a plus sign stands before an exponent that is not negative. -/
  plus : Bool
  /-- The least number of digits. -/
  width : Nat

/-- The decimal digits of `n`, filled up with zeros on the left. -/
def padded (width n : Nat) : List Char :=
  let digits := Nat.toDigits 10 n
  List.replicate (width - digits.length) '0' ++ digits

def ExponentStyle.write (style : ExponentStyle) (exponent : Int) : List Char :=
  style.mark ::
    ((if exponent < 0 then ['-'] else if style.plus then ['+'] else []) ++
      padded style.width exponent.natAbs)

/-- The first digit, a point if others follow, and the others. -/
def significand : List Char → List Char
  | [] => []
  | [first] => [first]
  | first :: rest => first :: '.' :: rest

/-- Scientific notation. -/
def scientific (style : ExponentStyle) (d : Digits) : List Char :=
  significand d.digits ++ style.write d.exponent

/-- Positional notation: no exponent, zeros filled in as far as the point. -/
def positional (d : Digits) : List Char :=
  match d.exponent with
  | .negSucc zeros => '0' :: '.' :: (List.replicate zeros '0' ++ d.digits)
  | .ofNat places =>
    let whole := d.digits.take (places + 1)
    let fraction := d.digits.drop (places + 1)
    whole ++ List.replicate (places + 1 - whole.length) '0' ++
      (if fraction.isEmpty then [] else '.' :: fraction)

end Digits

end CircuitCode
