import CircuitCode.Proofs.Number.Syntax
import CircuitCode.Proofs.Token.Lookahead
import CircuitCode.Proofs.Token.Step

/-!
# Numbers among the tokens of a parameter block

Where a number is written, a token is found for it unless what follows continues it
(`NumeralText.scans`). The other way round a token that is read as a number is one, or another word
for infinity after a sign (`looseNumeral_of_next?`).
-/

namespace CircuitCode

open Number

/-- A number: a decimal or an infinity, with a sign or without. -/
inductive NumeralText : List Char → Prop where
  | decimal {sign whole text : List Char} (hsign : SignText sign) (h : DecimalText whole text) :
      NumeralText (sign ++ text)
  | infinity {sign : List Char} (hsign : SignText sign) : NumeralText (sign ++ ['i', 'n', 'f'])

/-- As `NumeralText`, but any word for infinity that starts with `i` may follow a sign. -/
inductive LooseNumeral : List Char → Prop where
  | decimal {sign whole text : List Char} (hsign : SignText sign) (h : DecimalText whole text) :
      LooseNumeral (sign ++ text)
  | infinity {sign more : List Char} (hsign : SignText sign) (hword : InfinityText ('i' :: more))
      (hbare : sign = [] → more = ['n', 'f']) : LooseNumeral (sign ++ 'i' :: more)

/-- A number as the grammar has it, with a digit before the point. -/
inductive WholeNumeral : List Char → Prop where
  | decimal {sign whole text : List Char} (hsign : SignText sign) (hne : whole ≠ [])
      (h : DecimalText whole text) : WholeNumeral (sign ++ text)
  | infinity {sign : List Char} (hsign : SignText sign) : WholeNumeral (sign ++ ['i', 'n', 'f'])

theorem NumeralText.exists_ofLiteral? {text : List Char} (h : NumeralText text) :
    ∃ x, ofLiteral? (.ofList text) = some x := by
  rw [exists_ofLiteral?_iff]
  cases h with
  | decimal hsign h => exact ⟨_, _, rfl, hsign, .inr ⟨_, h⟩⟩
  | infinity hsign => exact ⟨_, _, rfl, hsign, .inl (.inl rfl)⟩

theorem WholeNumeral.numeralText {text : List Char} (h : WholeNumeral text) : NumeralText text := by
  cases h with
  | decimal hsign _ h => exact .decimal hsign h
  | infinity hsign => exact .infinity hsign

theorem WholeNumeral.head?_ne_point {text : List Char} (h : WholeNumeral text) :
    text.head? ≠ some '.' := by
  cases h with
  | @decimal sign whole text hsign hne h =>
    cases hsign with
    | minus => simp
    | plus => simp
    | none =>
      cases h with
      | mk hwhole =>
        obtain ⟨c, whole, rfl⟩ := List.exists_cons_of_ne_nil hne
        rintro ⟨⟩
        cases hwhole '.' List.mem_cons_self
  | infinity hsign => cases hsign <;> simp

namespace Lexeme

section Marks

theorem punctuation?_of_isIdentifierChar {c : Char} (h : isIdentifierChar c = true) :
    TokenKind.punctuation? c = none := by
  unfold TokenKind.punctuation?
  split
  all_goals first | rfl | cases h

theorem punctuation?_of_isSign {c : Char} (h : isSign c = true) :
    TokenKind.punctuation? c = none := by
  unfold TokenKind.punctuation?
  split
  all_goals first | rfl | cases h

/-- No punctuation mark is part of a number. -/
theorem punctuation?_of_numberLength {text rest : List Char}
    (h : numberLength (text ++ rest) = text.length) :
    ∀ c ∈ text, TokenKind.punctuation? c = none := by
  have hdigits {digits rest : List Char} (h : digitsLength (digits ++ rest) = digits.length) :
      ∀ c ∈ digits, TokenKind.punctuation? c = none :=
    fun c hc => punctuation?_of_isDigit ((length_takeWhile_append_eq_iff.mp h).1 c hc)
  have hsign {sign rest : List Char} (h : signLength (sign ++ rest) = sign.length) :
      ∀ c ∈ sign, TokenKind.punctuation? c = none := by
    rcases signLength_append_eq_iff.mp h with ⟨rfl, -⟩ | ⟨c, rfl, hc⟩
    · exact List.forall_mem_nil _
    · exact List.forall_mem_singleton.mpr (punctuation?_of_isSign hc)
  obtain ⟨sign, body, rfl, hsigned, hbody⟩ := numberLength_append_eq_iff.mp h
  rw [List.forall_mem_append]
  refine ⟨hsign hsigned, ?_⟩
  rcases hbody with ⟨-, hword⟩ | ⟨-, unsigned, exponent, rfl, hunsigned, hexponent⟩
  · intro c hc
    exact punctuation?_of_isIdentifierChar ((length_takeWhile_append_eq_iff.mp hword).1 c hc)
  · rw [List.forall_mem_append]
    constructor
    · obtain ⟨whole, fraction, rfl, hwhole, hfraction⟩ := seqLength_append_eq_iff.mp hunsigned
      rw [List.forall_mem_append]
      refine ⟨hdigits hwhole, ?_⟩
      rcases fractionLength_append_eq_iff.mp hfraction with ⟨rfl, -⟩ | ⟨digits, rfl, hmore⟩
      · exact List.forall_mem_nil _
      · exact List.forall_mem_cons.mpr ⟨rfl, hdigits hmore⟩
    · cases exponent with
      | nil => exact List.forall_mem_nil _
      | cons mark more =>
        rw [List.cons_append, exponentLength_cons] at hexponent
        split at hexponent
        · next hmark =>
          rw [List.length_cons, Nat.add_comm, Nat.add_right_cancel_iff] at hexponent
          obtain ⟨sign', digits, rfl, hsign', hdigits'⟩ := seqLength_append_eq_iff.mp hexponent
          rw [Bool.and_eq_true] at hmark
          refine List.forall_mem_cons.mpr ⟨?_, List.forall_mem_append.mpr
            ⟨hsign hsign', hdigits hdigits'⟩⟩
          exact punctuation?_of_isIdentifierChar (isIdentifierChar_of_isExponentMark hmark.1)
        · cases hexponent

/-- A token of a parameter block is a punctuation mark or has none in it. -/
theorem eq_mark_or_unmarked_of_next? {kind : TokenKind} {text rest : List Char}
    (h : next? .block (text ++ rest) = some (kind, text.length)) :
    (∃ c, text = [c] ∧ TokenKind.punctuation? c = some kind) ∨
      (∀ c ∈ text, TokenKind.punctuation? c = none) ∧ (kind = .number ∨ kind = .identifier) := by
  cases text with
  | nil => exact absurd (next?_pos h) (Nat.lt_irrefl 0)
  | cons c text =>
    rw [List.cons_append, next?_cons_eq_some_iff] at h
    cases h with
    | mark hkind hlength =>
      obtain rfl : text = [] := by simpa using hlength
      exact .inl ⟨c, rfl, hkind⟩
    | symbol _ hstart => cases hstart.1
    | number _ _ _ hkind hlength =>
      exact .inr ⟨punctuation?_of_numberLength hlength.symm, .inl hkind⟩
    | word _ _ _ _ hkind hlength =>
      have hword : identifierLength (c :: text ++ rest) = (c :: text).length := hlength.symm
      refine .inr ⟨?_, ?_⟩
      · intro d hd
        exact punctuation?_of_isIdentifierChar ((length_takeWhile_append_eq_iff.mp hword).1 d hd)
      · rw [hkind]
        split
        · exact .inl rfl
        · exact .inr rfl

end Marks

section Numbers

variable {text rest : List Char}

/-- What neither goes on with a decimal nor starts an exponent. -/
def endsDecimal (rest : List Char) : Bool :=
  !rest.head?.any fun c => c.isDigit || c == '.' || isExponentMark c

theorem digitsLength_of_endsDecimal (hrest : endsDecimal rest = true) :
    rest.head?.any Char.isDigit = false ∧ rest.head?.any (· == '.') = false ∧
      exponentLength rest = 0 := by
  cases rest with
  | nil => exact ⟨rfl, rfl, rfl⟩
  | cons c rest =>
    simp only [endsDecimal, List.head?_cons, Option.any_some, Bool.not_eq_true',
      Bool.or_eq_false_iff] at hrest
    obtain ⟨⟨hdigit, hpoint⟩, hmark⟩ := hrest
    refine ⟨hdigit, hpoint, ?_⟩
    rw [exponentLength_cons, hmark]
    rfl

theorem signLength_of_signText {sign : List Char} (hsign : SignText sign)
    (hrest : rest.head?.any isSign = false) : signLength (sign ++ rest) = sign.length := by
  refine signLength_append_eq_iff.mpr ?_
  cases hsign with
  | none => exact .inl ⟨rfl, hrest⟩
  | minus => exact .inr ⟨_, rfl, rfl⟩
  | plus => exact .inr ⟨_, rfl, rfl⟩

/-- An exponent is taken in up to its end. -/
theorem exponentLength_of_exponentText {exponent : List Char} (h : ExponentText exponent)
    (hrest : endsDecimal rest = true) :
    exponentLength (exponent ++ rest) = exponent.length := by
  obtain ⟨hdigit, -, hexponent⟩ := digitsLength_of_endsDecimal hrest
  cases h with
  | none => exact hexponent
  | @present mark sign digits hmark hsign hne hdigits =>
    have hmark' : isExponentMark mark = true := by
      rcases hmark with rfl | rfl <;> rfl
    obtain ⟨d, more, rfl⟩ := List.exists_cons_of_ne_nil hne
    have hd : d.isDigit = true := hdigits d List.mem_cons_self
    have hsigned : (d :: more ++ rest).head?.any isSign = false := not_sign_of_isDigit d hd
    have hstart : (sign ++ (d :: more ++ rest)).head?.any isIdentifierStart = false := by
      cases hsign with
      | minus => rfl
      | plus => rfl
      | none => exact not_isIdentifierStart_of_isDigit hd
    have hlength : seqLength signLength digitsLength (sign ++ (d :: more) ++ rest) =
        (sign ++ d :: more).length :=
      seqLength_append_eq_iff.mpr ⟨sign, d :: more, rfl, signLength_of_signText hsign hsigned,
        digitsLength_append hdigits hdigit⟩
    rw [List.cons_append, exponentLength_cons, hmark', hlength, List.append_assoc, hstart]
    simp [Nat.add_comm]

/-- Neither a digit nor a point comes after the digits of a decimal. -/
theorem head?_exponentText {exponent : List Char} (h : ExponentText exponent)
    (hrest : endsDecimal rest = true) :
    (exponent ++ rest).head?.any Char.isDigit = false ∧
      (exponent ++ rest).head?.any (· == '.') = false := by
  obtain ⟨hdigit, hpoint, -⟩ := digitsLength_of_endsDecimal hrest
  cases h with
  | none => exact ⟨hdigit, hpoint⟩
  | present hmark => rcases hmark with rfl | rfl <;> exact ⟨rfl, rfl⟩

/-- A decimal is taken in up to its end. -/
theorem decimalLength_of_decimalText {whole : List Char} (h : DecimalText whole text)
    (hrest : endsDecimal rest = true) : decimalLength (text ++ rest) = text.length := by
  cases h with
  | @mk fraction digits exponent hwhole hfraction hne hexponent =>
    obtain ⟨hdigit, hpoint⟩ := head?_exponentText hexponent hrest
    have hfractional : fractionLength (fraction ++ (exponent ++ rest)) = fraction.length := by
      refine fractionLength_append_eq_iff.mpr ?_
      cases hfraction with
      | none => exact .inl ⟨rfl, hpoint⟩
      | point hdigits => exact .inr ⟨_, rfl, digitsLength_append hdigits hdigit⟩
    have hhead : (fraction ++ (exponent ++ rest)).head?.any Char.isDigit = false := by
      cases hfraction with
      | none => exact hdigit
      | point => rfl
    have hunsigned : unsignedLength (whole ++ fraction ++ (exponent ++ rest)) =
        (whole ++ fraction).length :=
      seqLength_append_eq_iff.mpr ⟨whole, fraction, rfl, digitsLength_append hwhole hhead,
        hfractional⟩
    rw [decimalLength_eq, ← List.append_assoc whole]
    exact seqLength_append_eq_iff.mpr ⟨whole ++ fraction, exponent, rfl, hunsigned,
      exponentLength_of_exponentText hexponent hrest⟩

/-- A decimal is a token of its own where nothing continues it. -/
theorem next?_decimal {sign whole : List Char} (hsign : SignText sign) (h : DecimalText whole text)
    (hrest : endsDecimal rest = true) :
    next? .block (sign ++ text ++ rest) = some (.number, (sign ++ text).length) := by
  have hlength := decimalLength_of_decimalText h hrest
  obtain ⟨c, more, rfl, hc⟩ := h.exists_cons
  have hi : (c :: more ++ rest).head? ≠ some 'i' := by
    rintro heq
    obtain rfl : c = 'i' := by simpa using heq
    rcases hc with hc | hc <;> cases hc
  have hsigned : (c :: more ++ rest).head?.any isSign = false := by
    rcases hc with hc | rfl
    · exact not_sign_of_isDigit c hc
    · rfl
  have hnumber : numberLength (sign ++ (c :: more) ++ rest) = (sign ++ c :: more).length := by
    rw [numberLength_eq]
    refine seqLength_append_eq_iff.mpr
      ⟨sign, c :: more, rfl, signLength_of_signText hsign hsigned, ?_⟩
    rw [magnitudeLength, if_neg hi, hlength]
  have hstart : isNumberStart c = true := by
    rcases hc with hc | rfl
    · simp [isNumberStart, hc]
    · rfl
  have hmark : TokenKind.punctuation? c = none := by
    rcases hc with hc | rfl
    · exact punctuation?_of_isDigit hc
    · rfl
  rw [← hnumber]
  cases hsign with
  | none => exact next?_numberStart hmark hstart
  | minus => exact next?_numberStart rfl rfl
  | plus => exact next?_numberStart rfl rfl

/-- An infinity is a token of its own where nothing continues the word. -/
theorem next?_infinity {sign : List Char} (hsign : SignText sign)
    (hrest : rest.head?.any isIdentifierChar = false) :
    next? .block (sign ++ ['i', 'n', 'f'] ++ rest) =
      some (.number, (sign ++ ['i', 'n', 'f']).length) := by
  have hlength : identifierLength (['i', 'n', 'f'] ++ rest) = 3 := identifierLength_append rfl hrest
  have hnumber : numberLength (sign ++ ['i', 'n', 'f'] ++ rest) =
      (sign ++ ['i', 'n', 'f']).length := by
    rw [numberLength_eq]
    refine seqLength_append_eq_iff.mpr ⟨sign, _, rfl, signLength_of_signText hsign rfl, ?_⟩
    exact hlength
  cases hsign with
  | none => exact next?_inf hrest
  | minus =>
    rw [← hnumber]
    exact next?_numberStart rfl rfl
  | plus =>
    rw [← hnumber]
    exact next?_numberStart rfl rfl

theorem decimalLength_of_endsDecimal (hrest : endsDecimal rest = true) :
    decimalLength rest = 0 := by
  obtain ⟨hdigit, hpoint, hexponent⟩ := digitsLength_of_endsDecimal hrest
  have hdigits : digitsLength ([] ++ rest) = 0 := digitsLength_append nofun hdigit
  have hfraction : fractionLength ([] ++ rest) = 0 :=
    fractionLength_append_eq_iff.mpr (.inl ⟨rfl, hpoint⟩)
  rw [List.nil_append] at hdigits hfraction
  simp [decimalLength_eq, unsignedLength, seqLength, hdigits, hfraction, hexponent]

section Words

variable {c : Char} {more : List Char}

/-- No number but a word starts with the letter of an infinity. -/
theorem not_isNumberStart_of_toLower (hc : c.toLower = 'i') :
    isNumberStart c = false ∧ isExponentMark c = false := by
  have hdigit : c.isDigit = false := by
    by_contra h
    rw [Bool.not_eq_false] at h
    rw [← toLower_of_isDigit h, hc] at h
    cases h
  have hne {d : Char} (hd : d.toLower ≠ 'i') : c ≠ d := fun heq => hd (heq ▸ hc)
  have hminus : c ≠ '-' := hne (by decide)
  have hplus : c ≠ '+' := hne (by decide)
  have hpoint : c ≠ '.' := hne (by decide)
  have hmark : c ≠ 'e' := hne (by decide)
  have hmark' : c ≠ 'E' := hne (by decide)
  simp [isNumberStart, isSign, isExponentMark, hdigit, hminus, hplus, hpoint, hmark, hmark']

/-- Only a lower case `i` starts a word after a sign. -/
theorem eq_of_numberLength {sign : List Char} (hsign : SignText sign) (hc : c.toLower = 'i')
    (h : numberLength (sign ++ (c :: more ++ rest)) = (sign ++ c :: more).length) : c = 'i' := by
  obtain ⟨hnumber, hmark⟩ := not_isNumberStart_of_toLower hc
  simp only [isNumberStart, Bool.or_eq_false_iff] at hnumber
  obtain ⟨⟨hapart, hpoint⟩, hdigit⟩ := hnumber
  by_contra hi
  have hhead : (c :: (more ++ rest)).head? ≠ some 'i' := by simpa using hi
  have hends : endsDecimal (c :: (more ++ rest)) = true := by
    simp only [endsDecimal, List.head?_cons, Option.any_some, hdigit, hpoint, hmark]
    rfl
  have hlength : signLength (sign ++ c :: (more ++ rest)) = sign.length :=
    signLength_of_signText hsign hapart
  rw [numberLength_eq, seqLength, List.cons_append, hlength, List.drop_left, magnitudeLength,
    if_neg hhead, decimalLength_of_endsDecimal hends, List.length_append, List.length_cons] at h
  omega

/-- Without a sign the only word that is a number is `inf`. -/
theorem eq_inf_of_next? (hc : c.toLower = 'i')
    (h : next? .block (c :: more ++ rest) = some (.number, (c :: more).length)) :
    c :: more = ['i', 'n', 'f'] := by
  rw [List.cons_append, next?_cons_eq_some_iff] at h
  cases h with
  | mark hkind => exact absurd hkind (punctuation?_ne_number c)
  | symbol _ hstart => cases hstart.1
  | number _ _ hstart =>
    rw [(not_isNumberStart_of_toLower hc).1] at hstart
    cases hstart
  | word _ _ _ _ hkind hlength =>
    rw [← List.cons_append, List.take_left] at hkind
    split at hkind
    · assumption
    · cases hkind

end Words

end Numbers

end Lexeme

open Lexeme

/-- A number is a token of its own before a blank, a slash or a closing brace, and before the mark
    of a fixed parameter unless it is an infinity. -/
theorem NumeralText.scans {text rest : List Char} (h : NumeralText text)
    (hrest : endsDecimal rest = true)
    (hword : text.getLast? = some 'f' → rest.head?.any isIdentifierChar = false) :
    Scans .block text rest [(.number, String.ofList text)] .block := by
  cases h with
  | @decimal sign whole text hsign h =>
    have hnext := next?_decimal hsign h hrest
    obtain ⟨c, more, rfl, hc⟩ := h.exists_cons
    have hblank : (sign ++ c :: more).head?.any isBlank = false := by
      cases hsign with
      | none =>
        rcases hc with hc | rfl
        · exact isBlank_of_isDigit hc
        · rfl
      | minus => rfl
      | plus => rfl
    exact .of_next? (by decide) (by simp) hblank hnext
  | infinity hsign =>
    have hnext := next?_infinity hsign (hword (by simp))
    refine .of_next? (by decide) (by simp) ?_ hnext
    cases hsign <;> rfl

/-- A token that is read as a number is a decimal, an infinity or another word for infinity after a
    sign. -/
theorem looseNumeral_of_next? {text rest : List Char} {x : Number}
    (h : next? .block (text ++ rest) = some (.number, text.length))
    (hx : ofLiteral? (.ofList text) = some x) : LooseNumeral text := by
  obtain ⟨sign, magnitude, rfl, hsign, hword | ⟨whole, hdecimal⟩⟩ :=
    exists_ofLiteral?_iff.mp ⟨x, hx⟩
  · obtain ⟨c, more, rfl, hc⟩ := hword.exists_cons
    -- what follows a sign is read as a word only if its first letter is the right one
    have hsigned {c' : Char} (hmark : TokenKind.punctuation? c' = none)
        (hstart : isNumberStart c' = true) (hsign : SignText [c'])
        (h : next? .block ([c'] ++ c :: more ++ rest) = some (.number, ([c'] ++ c :: more).length)) :
        LooseNumeral ([c'] ++ c :: more) := by
      rw [List.append_assoc, List.singleton_append, next?_numberStart hmark hstart] at h
      obtain rfl := eq_of_numberLength hsign hc (congrArg Prod.snd (Option.some.inj h))
      exact .infinity hsign hword nofun
    cases hsign with
    | none =>
      obtain ⟨rfl, rfl⟩ := List.cons.inj (eq_inf_of_next? hc h)
      exact .infinity .none hword fun _ => rfl
    | minus => exact hsigned rfl rfl .minus h
    | plus => exact hsigned rfl rfl .plus h
  · exact .decimal hsign hdecimal

end CircuitCode
