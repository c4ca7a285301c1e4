import CircuitCode.Token.Basic

/-!
# Lexemes

Where the next token of a text ends. Letters mean different things inside and outside a parameter
block, so this depends on a mode. Each function gives the length of a lexeme at the start of a
text, so the lexeme and what follows it always make up the text again.
-/

namespace CircuitCode

/-- Where in circuit code a text stands. -/
inductive LexicalMode where
  /-- Among element symbols and brackets. -/
  | outside
  /-- Inside a parameter block. -/
  | block
  /-- After the colon in a parameter block. -/
  | label
deriving DecidableEq, Repr

namespace Lexeme

def isIdentifierStart (c : Char) : Bool := c.isAlpha || c == '_'

def isIdentifierChar (c : Char) : Bool := c.isAlphanum || c == '_'

def isSign (c : Char) : Bool := c == '-' || c == '+'

def isNumberStart (c : Char) : Bool := isSign c || c == '.' || c.isDigit

def digitsLength (text : List Char) : Nat := (text.takeWhile Char.isDigit).length

def identifierLength (text : List Char) : Nat := (text.takeWhile isIdentifierChar).length

def signLength : List Char → Nat
  | c :: _ => if isSign c then 1 else 0
  | [] => 0

/-- The length of a point and the digits after it. -/
def fractionLength : List Char → Nat
  | '.' :: rest => 1 + digitsLength rest
  | _ => 0

/-- The length of an exponent, which may lack its digits. A mark that is followed by a letter
    starts an identifier instead. -/
def exponentLength : List Char → Nat
  | [] => 0
  | mark :: rest =>
    if (mark == 'e' || mark == 'E') && !rest.head?.any isIdentifierStart then
      1 + signLength rest + digitsLength (rest.drop (signLength rest))
    else 0

/-- The length of digits with a fraction and an exponent, each of which may be missing. -/
def decimalLength (text : List Char) : Nat :=
  let whole := digitsLength text
  let fraction := fractionLength (text.drop whole)
  whole + fraction + exponentLength (text.drop (whole + fraction))

/-- The length of a number: an optional sign and then a decimal, or a word that starts like
    `inf`. -/
def numberLength (text : List Char) : Nat :=
  let sign := signLength text
  let magnitude := text.drop sign
  if magnitude.head? = some 'i' then sign + identifierLength magnitude
  else sign + decimalLength magnitude

/-- The kind and the length of the token at the start of a text, where neither a blank nor the end
    is. There is none if no token can start there. -/
def next? (mode : LexicalMode) (text : List Char) : Option (TokenKind × Nat) :=
  match text with
  | [] => none
  | c :: rest =>
    match TokenKind.punctuation? c with
    | some kind => some (kind, 1)
    | none =>
      if mode = .outside ∧ c.isAlpha then some (.symbol, 1 + (rest.takeWhile Char.isLower).length)
      else if isNumberStart c then some (.number, numberLength text)
      else if mode = .block ∧ isIdentifierStart c then
        let length := identifierLength text
        some (if text.take length = ['i', 'n', 'f'] then .number else .identifier, length)
      else none

theorem numberLength_pos {c : Char} {rest : List Char} (h : isNumberStart c) :
    0 < numberLength (c :: rest) := by
  unfold numberLength
  by_cases hsign : isSign c
  · have hs : signLength (c :: rest) = 1 := by simp [signLength, hsign]
    simp only [hs]
    split <;> omega
  · have hs : signLength (c :: rest) = 0 := by simp [signLength, hsign]
    simp only [hs, List.drop_zero, Nat.zero_add]
    have hstart : c = '.' ∨ c.isDigit = true := by
      simpa [isNumberStart, hsign] using h
    rcases hstart with rfl | hdigit
    · have hwhole : digitsLength ('.' :: rest) = 0 := by simp [digitsLength]
      have hfraction : fractionLength ('.' :: rest) = 1 + digitsLength rest := rfl
      rw [if_neg (by simp)]
      simp only [decimalLength, hwhole, List.drop_zero, hfraction]
      omega
    · have hi : c ≠ 'i' := by
        intro heq
        rw [heq] at hdigit
        exact absurd hdigit (by decide)
      have hlen : 0 < digitsLength (c :: rest) := by simp [digitsLength, hdigit]
      simp only [List.head?_cons, Option.some.injEq, hi, ↓reduceIte, decimalLength]
      omega

/-- A token takes at least one character. -/
theorem next?_pos {mode : LexicalMode} {text : List Char} {kind : TokenKind} {length : Nat}
    (h : next? mode text = some (kind, length)) : 0 < length := by
  cases text with
  | nil => simp [next?] at h
  | cons c rest =>
    simp only [next?] at h
    split at h
    · cases h
      decide
    · split at h
      · cases h
        omega
      · split at h
        · next hstart =>
            cases h
            exact numberLength_pos hstart
        · split at h
          · next hstart =>
              cases h
              have hchar : isIdentifierChar c = true := by
                have hc := hstart.2
                simp only [isIdentifierStart, isIdentifierChar, Char.isAlphanum, Bool.or_eq_true]
                  at hc ⊢
                rcases hc with hc | hc
                · exact Or.inl (Or.inl hc)
                · exact Or.inr hc
              simp [identifierLength, hchar]
          · cases h

end Lexeme

end CircuitCode
