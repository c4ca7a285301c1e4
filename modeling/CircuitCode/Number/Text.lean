import CircuitCode.Number.Digits

/-!
# Texts of a number

Four forms. `plain` is positional and has the fewest digits that read back; messages and
expressions use it. `scientific` has the same digits with an exponent. `scientificTo` has a given
count of decimals and is rounded, and `code` is that form as circuit code writes it.
-/

namespace CircuitCode

namespace Number

/-- The text of a number from the text of a finite magnitude. -/
def write (magnitude : Nat → List Char) : Number → String
  | nan _ => "NaN"
  | infinite negative => if negative then "-inf" else "inf"
  | finite negative units _ =>
    String.ofList ((if negative then ['-'] else []) ++ magnitude units)

/-- Shortest digits, never with an exponent. -/
def plain (number : Number) : String :=
  number.write fun units => (Digits.shortest units).positional

/-- Exponents of plain scientific notation: a bare `e` and no plus sign. -/
def exponentStyle : Digits.ExponentStyle := ⟨'e', false, 1⟩

/-- Shortest digits with an exponent. -/
def scientific (number : Number) : String :=
  number.write fun units => (Digits.shortest units).scientific exponentStyle

/-- The exact value rounded to `decimals` digits after the point, with an exponent. -/
def scientificTo (decimals : Nat) (number : Number) : String :=
  number.write fun units => (Digits.rounded units decimals).scientific exponentStyle

/-- Exponents in circuit code: a capital `E`, always a sign, and at least two digits. -/
def codeExponentStyle : Digits.ExponentStyle := ⟨'E', true, 2⟩

/-- A parameter value in circuit code, such as `8.3E+01`. A zero has no sign there. -/
def code (decimals : Nat) (number : Number) : String :=
  let unsigned := if number.rank = 0 ∧ number.isNaN = false then zero else number
  unsigned.write fun units => (Digits.rounded units decimals).scientific codeExponentStyle

end Number

end CircuitCode
