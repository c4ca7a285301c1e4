import CircuitCode.Element.Kind
import CircuitCode.Proofs.Number.Code
import CircuitCode.Proofs.Token.Scan

/-!
# Scanning symbols, names and numbers

What is scanned where a symbol, a name or the text of a number stands before something that does
not continue it. An infinity before the mark of a fixed parameter is not scanned apart from it.
-/

namespace CircuitCode

open Lexeme

theorem punctuation?_of_isDigit {c : Char} (h : c.isDigit = true) :
    TokenKind.punctuation? c = none := by
  unfold TokenKind.punctuation?
  split
  all_goals first | rfl | cases h

theorem isDigit_iff {c : Char} : c.isDigit = true ↔ 48 ≤ c.toNat ∧ c.toNat ≤ 57 :=
  Char.isDigit_iff_toNat

theorem isBlank_of_isDigit {c : Char} (h : c.isDigit = true) : isBlank c = false := by
  rw [isDigit_iff] at h
  simp [isBlank, blankRanges]
  omega

namespace Lexeme

theorem isAlpha_iff {c : Char} : c.isAlpha = true ↔
    65 ≤ c.toNat ∧ c.toNat ≤ 90 ∨ 97 ≤ c.toNat ∧ c.toNat ≤ 122 := by
  change (decide (65 ≤ c.toNat ∧ c.toNat ≤ 90) ||
    (decide (97 ≤ c.toNat) && decide (c.toNat ≤ 122))) = true ↔ _
  simp only [Bool.or_eq_true, Bool.and_eq_true, decide_eq_true_eq]

theorem isAlpha_of_isLower {c : Char} (h : c.isLower = true) : c.isAlpha = true :=
  (Bool.or_eq_true _ _).mpr (.inr h)

theorem not_isIdentifierStart_of_isDigit {c : Char} (h : c.isDigit = true) :
    isIdentifierStart c = false := by
  have hunderscore : c ≠ '_' := by
    rintro rfl
    cases h
  rw [isDigit_iff] at h
  rw [isIdentifierStart, Bool.or_eq_false_iff, beq_eq_false_iff_ne, Bool.eq_false_iff, ne_eq,
    isAlpha_iff]
  exact ⟨by omega, hunderscore⟩

/-- Whether a text is scanned as a name in a parameter block. -/
def isName : List Char → Bool
  | [] => false
  | c :: rest =>
    TokenKind.punctuation? c == none && !isNumberStart c && !isBlank c && isIdentifierStart c &&
      (c :: rest).all isIdentifierChar && c :: rest != ['i', 'n', 'f']

variable {rest : List Char}

theorem identifierLength_append {word : List Char} (hword : word.all isIdentifierChar = true)
    (hrest : rest.head?.any isIdentifierChar = false) :
    identifierLength (word ++ rest) = word.length := by
  rw [identifierLength, takeWhile_append_of_head? (by simpa using hword) hrest]

theorem ne_nil_of_isName {name : List Char} (h : isName name = true) : name ≠ [] := by
  rintro rfl
  cases h

theorem head?_of_isName {name : List Char} (h : isName name = true) :
    name.head?.any isBlank = false := by
  cases name with
  | nil => rfl
  | cons c more =>
    simp only [isName, Bool.and_eq_true, Bool.not_eq_true'] at h
    exact h.1.1.1.2

theorem next?_name {name : List Char} (hname : isName name = true)
    (hrest : rest.head?.any isIdentifierChar = false) :
    next? .block (name ++ rest) = some (.identifier, name.length) := by
  cases name with
  | nil => cases hname
  | cons c more =>
    simp only [isName, Bool.and_eq_true, beq_iff_eq, Bool.not_eq_true', bne_iff_ne] at hname
    obtain ⟨⟨⟨⟨⟨hmark, hnumber⟩, -⟩, hstart⟩, hall⟩, hinf⟩ := hname
    have hlength := identifierLength_append hall hrest
    rw [List.cons_append] at hlength ⊢
    rw [next?, hmark]
    simp only [reduceCtorEq, false_and, ↓reduceIte, hnumber, Bool.false_eq_true, true_and, hstart]
    rw [hlength, ← List.cons_append, List.take_left, if_neg hinf]

theorem next?_symbol (kind : ElementKind) (hrest : rest.head?.any Char.isLower = false) :
    next? .outside (kind.symbol.toList ++ rest) = some (.symbol, kind.symbol.toList.length) := by
  obtain ⟨c, lower, htext, hmark, halpha, hlower⟩ : ∃ c lower, kind.symbol.toList = c :: lower ∧
      TokenKind.punctuation? c = none ∧ c.isAlpha = true ∧ ∀ d ∈ lower, d.isLower = true := by
    cases kind <;> exact ⟨_, _, rfl, rfl, rfl, List.all_eq_true.mp rfl⟩
  rw [htext, List.cons_append, next?, hmark]
  simp only [halpha, and_self, ↓reduceIte, Option.some.injEq, Prod.mk.injEq, true_and]
  rw [takeWhile_append_of_head? hlower hrest, List.length_cons]
  omega

section Number

open Digits

theorem digitsLength_append {digits : List Char} (hdigits : ∀ c ∈ digits, c.isDigit = true)
    (hrest : rest.head?.any Char.isDigit = false) :
    digitsLength (digits ++ rest) = digits.length := by
  rw [digitsLength, takeWhile_append_of_head? hdigits hrest]

theorem exponentLength_write (exponent : Int) (hrest : rest.head?.any Char.isDigit = false) :
    exponentLength (Number.codeExponentStyle.write exponent ++ rest) =
      (Number.codeExponentStyle.write exponent).length := by
  obtain ⟨sign, hsign, hwrite⟩ : ∃ sign, (sign = '-' ∨ sign = '+') ∧
      Number.codeExponentStyle.write exponent = 'E' :: sign :: padded 2 exponent.natAbs := by
    unfold ExponentStyle.write Number.codeExponentStyle
    by_cases hneg : exponent < 0
    · exact ⟨'-', Or.inl rfl, by simp [hneg]⟩
    · exact ⟨'+', Or.inr rfl, by simp [hneg]⟩
  have hpadded : ∀ c ∈ padded 2 exponent.natAbs, c.isDigit = true := isDigit_padded
  have hlength := digitsLength_append hpadded hrest
  rw [hwrite]
  rcases hsign with rfl | rfl <;>
    simp [exponentLength, signLength, isSign, isIdentifierStart, hlength] <;> omega

theorem decimalLength_scientific {d : Digits} (hd : d.WellFormed)
    (hrest : rest.head?.any Char.isDigit = false) :
    decimalLength (d.scientific Number.codeExponentStyle ++ rest) =
      (d.scientific Number.codeExponentStyle).length := by
  obtain ⟨hne, hdigits⟩ := hd
  have hexponent := exponentLength_write d.exponent hrest
  obtain ⟨tail, htail⟩ : ∃ tail, Number.codeExponentStyle.write d.exponent = 'E' :: tail := ⟨_, rfl⟩
  rw [Digits.scientific, htail]
  rw [htail] at hexponent
  rcases hrun : d.digits with _ | ⟨first, _ | ⟨second, more⟩⟩
  · exact absurd hrun hne
  · rw [hrun] at hdigits
    have hwhole : digitsLength ([first] ++ ('E' :: tail ++ rest)) = 1 :=
      digitsLength_append hdigits rfl
    rw [significand, List.append_assoc, decimalLength]
    simp only [hwhole]
    have hfraction : fractionLength ('E' :: tail ++ rest) = 0 := rfl
    have hdrop : ([first] ++ ('E' :: tail ++ rest)).drop 1 = 'E' :: tail ++ rest := rfl
    rw [hdrop, hfraction, Nat.add_zero, hdrop, hexponent, List.length_append, List.length_singleton]
  · rw [hrun] at hdigits
    obtain ⟨hfirst, hothers⟩ := List.forall_mem_cons.mp hdigits
    have hwhole : digitsLength ([first] ++ '.' :: (second :: more ++ ('E' :: tail ++ rest))) = 1 :=
      digitsLength_append (by simpa using hfirst) rfl
    have htext : significand (first :: second :: more) ++ 'E' :: tail ++ rest =
        [first] ++ '.' :: (second :: more ++ ('E' :: tail ++ rest)) := by
      simp [significand]
    have hfraction : fractionLength ('.' :: (second :: more ++ ('E' :: tail ++ rest))) =
        1 + (second :: more).length := by
      rw [fractionLength, digitsLength_append hothers rfl]
    have hdrop : ([first] ++ '.' :: (second :: more ++ ('E' :: tail ++ rest))).drop 1 =
        '.' :: (second :: more ++ ('E' :: tail ++ rest)) := rfl
    have hdrop' : ([first] ++ '.' :: (second :: more ++ ('E' :: tail ++ rest))).drop
        (1 + (1 + (second :: more).length)) = 'E' :: tail ++ rest := by
      rw [Nat.add_comm 1 (1 + _), Nat.add_comm 1 (second :: more).length]
      simp
    rw [htext, decimalLength]
    simp only [hwhole]
    rw [hdrop, hfraction, hdrop', hexponent]
    simp [significand]
    omega

theorem next?_numberStart {c : Char} (hmark : TokenKind.punctuation? c = none)
    (hstart : isNumberStart c = true) :
    next? .block (c :: rest) = some (.number, numberLength (c :: rest)) := by
  rw [next?, hmark]
  simp [hstart]

theorem numberLength_decimal {text magnitude : List Char} {sign : Nat}
    (hsign : signLength text = sign) (hdrop : text.drop sign = magnitude)
    (hi : magnitude.head? ≠ some 'i') : numberLength text = sign + decimalLength magnitude := by
  unfold numberLength
  dsimp only
  rw [hsign, hdrop, if_neg hi]

/-- The text of a finite number is one token wherever no digit follows. -/
theorem next?_scientific (negative : Bool) {d : Digits} (hd : d.WellFormed)
    (hrest : rest.head?.any Char.isDigit = false) :
    next? .block ((if negative then ['-'] else []) ++
      d.scientific Number.codeExponentStyle ++ rest) =
        some (.number, ((if negative then ['-'] else []) ++
          d.scientific Number.codeExponentStyle).length) := by
  have hdecimal := decimalLength_scientific hd hrest
  obtain ⟨c, more, htext, hc⟩ := scientific_eq_cons hd Number.codeExponentStyle
  obtain ⟨hminus, hplus, hi, -⟩ := Number.ne_of_isDigit hc
  have hhead : (c :: more ++ rest).head? ≠ some 'i' := by simpa using hi
  rw [htext] at hdecimal ⊢
  cases negative with
  | true =>
    have hlength : numberLength ('-' :: (c :: more ++ rest)) = 1 + (c :: more).length := by
      have hsign : signLength ('-' :: (c :: more ++ rest)) = 1 := rfl
      rw [numberLength_decimal hsign rfl hhead, List.drop_one, List.tail_cons, hdecimal]
    change next? .block ('-' :: (c :: more ++ rest)) = some (.number, (c :: more).length + 1)
    rw [next?_numberStart rfl rfl, hlength, Nat.add_comm]
  | false =>
    have hsign : signLength (c :: more ++ rest) = 0 := by
      simp [signLength, isSign, hminus, hplus]
    have hlength : numberLength (c :: more ++ rest) = (c :: more).length := by
      rw [numberLength_decimal hsign List.drop_zero hhead, hdecimal, Nat.zero_add]
    have hstart : isNumberStart c = true := by simp [isNumberStart, hc]
    change next? .block (c :: (more ++ rest)) = some (.number, (c :: more).length)
    rw [next?_numberStart (punctuation?_of_isDigit hc) hstart, ← List.cons_append, hlength]

end Number

/-- An infinity is a number if nothing continues the word. -/
theorem next?_inf (hrest : rest.head?.any isIdentifierChar = false) :
    next? .block (['i', 'n', 'f'] ++ rest) = some (.number, 3) := by
  have hlength : identifierLength (['i', 'n', 'f'] ++ rest) = 3 := identifierLength_append rfl hrest
  change (let length := identifierLength (['i', 'n', 'f'] ++ rest)
    some (if (['i', 'n', 'f'] ++ rest).take length = ['i', 'n', 'f'] then TokenKind.number
      else .identifier, length)) = _
  rw [hlength]
  rfl

/-- A minus sign and a word that starts like an infinity are a number up to the end of the word. -/
theorem next?_negative {word : List Char} (hword : word.all isIdentifierChar = true)
    (hi : word.head? = some 'i') (hrest : rest.head?.any isIdentifierChar = false) :
    next? .block ('-' :: word ++ rest) = some (.number, word.length + 1) := by
  have hlength : numberLength ('-' :: (word ++ rest)) = 1 + word.length := by
    have hhead : (word ++ rest).head? = some 'i' := by
      rw [List.head?_append, hi]
      rfl
    change (if (word ++ rest).head? = some 'i' then 1 + identifierLength (word ++ rest)
      else 1 + decimalLength (word ++ rest)) = _
    rw [if_pos hhead, identifierLength_append hword hrest]
  rw [List.cons_append, next?_numberStart rfl rfl, hlength, Nat.add_comm]

end Lexeme

namespace Scans

variable {rest : List Char}

/-- The symbol of a kind is a token where no lower case letter follows. -/
theorem symbol (kind : ElementKind) (hrest : rest.head?.any Char.isLower = false) :
    Scans .outside kind.symbol.toList rest [(.symbol, kind.symbol)] .outside := by
  have h := of_next? (by decide) (by cases kind <;> decide) (by cases kind <;> decide)
    (next?_symbol kind hrest)
  rwa [String.ofList_toList] at h

/-- A name is a token where nothing continues it. -/
theorem name {name : String} (hname : isName name.toList = true)
    (hrest : rest.head?.any isIdentifierChar = false) :
    Scans .block name.toList rest [(.identifier, name)] .block := by
  have h := of_next? (by decide) (ne_nil_of_isName hname) (head?_of_isName hname)
    (next?_name hname hrest)
  rwa [String.ofList_toList] at h

end Scans

end CircuitCode
