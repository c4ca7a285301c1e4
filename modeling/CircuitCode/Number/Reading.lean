import CircuitCode.Number.Rounding

/-!
# Reading numbers

The written forms of a number: an optional sign, then digits with an optional point and an
optional exponent, or one of the words `inf`, `infinity` and `nan` in any case. A decimal denotes
the binary64 number nearest it.
-/

namespace CircuitCode

namespace Number

/-- An optional sign (`true` for minus) and what follows it. -/
def splitSign : List Char → Bool × List Char
  | '-' :: rest => (true, rest)
  | '+' :: rest => (false, rest)
  | rest => (false, rest)

/-- A run of digits that makes up the whole text, with an optional sign. -/
def readInteger (text : List Char) : Option Int :=
  let (negative, digits) := splitSign text
  if digits.isEmpty || !digits.all Char.isDigit then none
  else
    let magnitude := Nat.ofDigitChars 10 digits 0
    some (if negative then -(magnitude : Int) else magnitude)

/-- The exponent part, which may be missing. -/
def readExponent : List Char → Option Int
  | [] => some 0
  | mark :: rest => if mark = 'e' ∨ mark = 'E' then readInteger rest else none

/-- The digits after the point, if there is one, and what follows them. -/
def splitFraction : List Char → List Char × List Char
  | '.' :: rest => (rest.takeWhile Char.isDigit, rest.dropWhile Char.isDigit)
  | rest => ([], rest)

/-- A decimal without its sign. A digit is required before or after the point. -/
def readDecimal (negative : Bool) (text : List Char) : Option Number :=
  let whole := text.takeWhile Char.isDigit
  let (fraction, rest) := splitFraction (text.dropWhile Char.isDigit)
  if whole.isEmpty && fraction.isEmpty then none
  else
    (readExponent rest).map fun exponent =>
      ofDecimal negative (Nat.ofDigitChars 10 (whole ++ fraction) 0)
        (exponent - fraction.length)

/-- The infinity or the value that is not a number which a word denotes, in any case. -/
def readWord (negative : Bool) (text : List Char) : Option Number :=
  let word := text.map Char.toLower
  if word = ['i', 'n', 'f'] ∨ word = ['i', 'n', 'f', 'i', 'n', 'i', 't', 'y'] then
    some (.infinite negative)
  else if word = ['n', 'a', 'n'] then some (.nan negative)
  else none

def ofChars? (text : List Char) : Option Number :=
  let (negative, magnitude) := splitSign text
  (readWord negative magnitude).or (readDecimal negative magnitude)

/-- The number a text denotes, if it is a written form of one. -/
def ofText? (text : String) : Option Number :=
  ofChars? text.toList

/-- As `ofText?`, for a place where a value is required: `nan` is no value. -/
def ofLiteral? (text : String) : Option Number :=
  (ofText? text).filter fun number => !number.isNaN

end Number

end CircuitCode
