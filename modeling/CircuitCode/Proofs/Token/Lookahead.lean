import CircuitCode.Proofs.Token.Lexeme
import CircuitCode.Proofs.Token.Step

/-!
# How far the scanner looks ahead

A token ends where the text after it does not continue it. So it is the same token before any
other text that starts with a blank or with the same character (`Follows`). Only a number looks at
two characters: an `e` or `E` after its digits is part of it unless a letter follows
(`next?_of_follows`, `next?_of_mark`).
-/

namespace CircuitCode

/-- A text can take the place of the one after a token: it starts with the same character, or with
    a blank, or there is nothing more. -/
def Follows (rest rest' : List Char) : Prop :=
  rest'.head?.all isBlank = true ∨ rest'.head? = rest.head?

namespace Follows

variable {rest rest' : List Char}

/-- What continues a token is not blank, so no other text continues it either. -/
theorem any_head? (h : Follows rest rest') {p : Char → Bool}
    (hp : ∀ c, p c = true → isBlank c = false) (hrest : rest.head?.any p = false) :
    rest'.head?.any p = false := by
  rcases h with h | h
  · cases hhead : rest'.head? with
    | none => rfl
    | some c =>
      rw [hhead, Option.all_some] at h
      rw [Option.any_some, Bool.eq_false_iff]
      intro hc
      rw [hp c hc] at h
      cases h
  · rw [h, hrest]

theorem append_left (h : Follows rest rest') (text : List Char) :
    Follows (text ++ rest) (text ++ rest') := by
  cases text with
  | nil => exact h
  | cons c text => exact .inr rfl

end Follows

/-- How long a run is can be told from what it consists of and from what comes next. -/
theorem length_takeWhile_append_eq_iff {p : Char → Bool} {text rest : List Char} :
    ((text ++ rest).takeWhile p).length = text.length ↔
      (∀ c ∈ text, p c = true) ∧ rest.head?.any p = false := by
  induction text with
  | nil => cases rest <;> simp [List.takeWhile_cons]
  | cons c text ih =>
    rw [List.cons_append, List.takeWhile_cons, List.forall_mem_cons, and_assoc, ← ih]
    by_cases hc : p c = true <;> simp [hc]

namespace Lexeme

/-- A letter that can start an exponent. -/
def isExponentMark (c : Char) : Bool := c == 'e' || c == 'E'

theorem isBlank_of_isIdentifierChar {c : Char} (h : isIdentifierChar c = true) :
    isBlank c = false := by
  simp only [isIdentifierChar, Char.isAlphanum, Bool.or_eq_true, beq_iff_eq, isAlpha_iff,
    isDigit_iff] at h
  rcases h with h | rfl
  · simp [isBlank, blankRanges]
    omega
  · decide

theorem isIdentifierChar_of_isIdentifierStart {c : Char} (h : isIdentifierStart c = true) :
    isIdentifierChar c = true := by
  simp only [isIdentifierStart, isIdentifierChar, Char.isAlphanum, Bool.or_eq_true] at h ⊢
  exact h.imp_left .inl

theorem isIdentifierChar_of_isLower {c : Char} (h : c.isLower = true) :
    isIdentifierChar c = true := by
  simp [isIdentifierChar, Char.isAlphanum, isAlpha_of_isLower h]

theorem isIdentifierStart_of_isExponentMark {c : Char} (h : isExponentMark c = true) :
    isIdentifierStart c = true := by
  simp only [isExponentMark, Bool.or_eq_true, beq_iff_eq] at h
  rcases h with rfl | rfl <;> decide

theorem isIdentifierChar_of_isExponentMark {c : Char} (h : isExponentMark c = true) :
    isIdentifierChar c = true :=
  isIdentifierChar_of_isIdentifierStart (isIdentifierStart_of_isExponentMark h)

theorem isBlank_of_isExponentMark {c : Char} (h : isExponentMark c = true) : isBlank c = false :=
  isBlank_of_isIdentifierChar (isIdentifierChar_of_isExponentMark h)

/-- A blank is no part of a word. -/
theorem isIdentifierChar_of_isBlank {c : Char} (h : isBlank c = true) :
    isIdentifierChar c = false := by
  by_contra hc
  rw [isBlank_of_isIdentifierChar (by simpa using hc)] at h
  cases h

/-- What goes on with no word does not start one. -/
theorem any_isIdentifierStart_of_isIdentifierChar {text : List Char}
    (h : text.head?.any isIdentifierChar = false) :
    text.head?.any isIdentifierStart = false := by
  cases hhead : text.head? with
  | none => rfl
  | some c =>
    rw [hhead, Option.any_some] at h
    rw [Option.any_some, Bool.eq_false_iff]
    intro hc
    rw [isIdentifierChar_of_isIdentifierStart hc] at h
    cases h

theorem utf8Size_of_isExponentMark {c : Char} (h : isExponentMark c = true) : c.utf8Size = 1 := by
  simp only [isExponentMark, Bool.or_eq_true, beq_iff_eq] at h
  rcases h with rfl | rfl <;> rfl

theorem isBlank_of_isSign {c : Char} (h : isSign c = true) : isBlank c = false := by
  simp only [isSign, Bool.or_eq_true, beq_iff_eq] at h
  rcases h with rfl | rfl <;> decide

/-- The length of a piece of a text and of a second one that comes right after it. -/
def seqLength (first next : List Char → Nat) (text : List Char) : Nat :=
  first text + next (text.drop (first text))

/-- A length that takes in all of a text stays the same before another text that can take the place
    of what comes next. -/
def Stable (length : List Char → Nat) : Prop :=
  ∀ text rest rest', length (text ++ rest) = text.length → Follows rest rest' →
    length (text ++ rest') = text.length

/-- No text of a length has a letter that can start an exponent. -/
def Unmarked (length : List Char → Nat) : Prop :=
  ∀ text rest, length (text ++ rest) = text.length → text.any isExponentMark = false

section Pieces

variable {first next : List Char → Nat} {text rest rest' : List Char}

theorem seqLength_append_eq_iff :
    seqLength first next (text ++ rest) = text.length ↔
      ∃ left right, text = left ++ right ∧ first (left ++ (right ++ rest)) = left.length ∧
        next (right ++ rest) = right.length := by
  unfold seqLength
  constructor
  · intro h
    have hle : first (text ++ rest) ≤ text.length := by omega
    have hlength : (text.take (first (text ++ rest))).length = first (text ++ rest) :=
      List.length_take_of_le hle
    refine ⟨text.take (first (text ++ rest)), text.drop (first (text ++ rest)),
      (List.take_append_drop _ _).symm, ?_, ?_⟩
    · rw [← List.append_assoc, List.take_append_drop, hlength]
    · rw [← List.drop_append_of_le_length hle, List.length_drop]
      omega
  · rintro ⟨left, right, rfl, hfirst, hnext⟩
    rw [List.append_assoc, hfirst, List.drop_left, hnext, List.length_append]

theorem Stable.seq (hfirst : Stable first) (hnext : Stable next) :
    Stable (seqLength first next) := by
  intro text rest rest' h hfollows
  obtain ⟨left, right, rfl, hleft, hright⟩ := seqLength_append_eq_iff.mp h
  exact seqLength_append_eq_iff.mpr ⟨left, right, rfl,
    hfirst left _ _ hleft (hfollows.append_left right), hnext right _ _ hright hfollows⟩

theorem Unmarked.seq (hfirst : Unmarked first) (hnext : Unmarked next) :
    Unmarked (seqLength first next) := by
  intro text rest h
  obtain ⟨left, right, rfl, hleft, hright⟩ := seqLength_append_eq_iff.mp h
  rw [List.any_append, hfirst left _ hleft, hnext right _ hright]
  rfl

theorem stable_takeWhile {p : Char → Bool} (hp : ∀ c, p c = true → isBlank c = false) :
    Stable fun text => (text.takeWhile p).length := by
  intro text rest rest' h hfollows
  obtain ⟨htext, hrest⟩ := length_takeWhile_append_eq_iff.mp h
  exact length_takeWhile_append_eq_iff.mpr ⟨htext, hfollows.any_head? hp hrest⟩

theorem stable_identifierLength : Stable identifierLength :=
  stable_takeWhile fun _ => isBlank_of_isIdentifierChar

theorem stable_digitsLength : Stable digitsLength := stable_takeWhile fun _ => isBlank_of_isDigit

theorem unmarked_digitsLength : Unmarked digitsLength := by
  intro text rest h
  obtain ⟨htext, -⟩ := length_takeWhile_append_eq_iff.mp h
  rw [List.any_eq_false]
  intro c hc hmark
  simp only [isExponentMark, Bool.or_eq_true, beq_iff_eq] at hmark
  rcases hmark with rfl | rfl <;> exact absurd (htext _ hc) (by decide)

theorem signLength_eq_zero_iff : signLength text = 0 ↔ text.head?.any isSign = false := by
  cases text with
  | nil => simp [signLength]
  | cons c text => simp [signLength]

theorem signLength_append_eq_iff :
    signLength (text ++ rest) = text.length ↔
      (text = [] ∧ rest.head?.any isSign = false) ∨ ∃ c, text = [c] ∧ isSign c = true := by
  cases text with
  | nil => simp [signLength_eq_zero_iff]
  | cons c text =>
    have hlength : signLength (c :: text ++ rest) = if isSign c then 1 else 0 := rfl
    rw [hlength]
    by_cases hc : isSign c = true
    · cases text <;> simp [hc]
    · simp [hc]

theorem stable_signLength : Stable signLength := by
  intro text rest rest' h hfollows
  rw [signLength_append_eq_iff] at h ⊢
  exact h.imp_left fun ⟨htext, hrest⟩ =>
    ⟨htext, hfollows.any_head? (fun _ => isBlank_of_isSign) hrest⟩

theorem unmarked_signLength : Unmarked signLength := by
  intro text rest h
  rcases signLength_append_eq_iff.mp h with ⟨rfl, -⟩ | ⟨c, rfl, hc⟩
  · rfl
  · simp only [isSign, Bool.or_eq_true, beq_iff_eq] at hc
    rcases hc with rfl | rfl <;> rfl

theorem fractionLength_append_eq_iff :
    fractionLength (text ++ rest) = text.length ↔
      (text = [] ∧ rest.head?.any (· == '.') = false) ∨
        ∃ digits, text = '.' :: digits ∧ digitsLength (digits ++ rest) = digits.length := by
  have hzero {c : Char} {more : List Char} (hc : c ≠ '.') : fractionLength (c :: more) = 0 := by
    unfold fractionLength
    split
    · next heq => exact absurd (List.cons.inj heq).1 hc
    · rfl
  have hpoint (more : List Char) : fractionLength ('.' :: more) = 1 + digitsLength more := rfl
  cases text with
  | nil =>
    cases rest with
    | nil => simp [fractionLength]
    | cons c rest =>
      by_cases hc : c = '.'
      · subst hc
        simp [hpoint]
      · simp [hzero hc, hc]
  | cons c text =>
    by_cases hc : c = '.'
    · subst hc
      simp [hpoint, Nat.add_comm 1]
    · simp [hzero hc, hc]

theorem stable_fractionLength : Stable fractionLength := by
  intro text rest rest' h hfollows
  rw [fractionLength_append_eq_iff] at h ⊢
  rcases h with ⟨rfl, hrest⟩ | ⟨digits, rfl, hdigits⟩
  · refine .inl ⟨rfl, hfollows.any_head? ?_ hrest⟩
    intro c hc
    rw [beq_iff_eq.mp hc]
    rfl
  · exact .inr ⟨digits, rfl, stable_digitsLength digits _ _ hdigits hfollows⟩

theorem unmarked_fractionLength : Unmarked fractionLength := by
  intro text rest h
  rcases fractionLength_append_eq_iff.mp h with ⟨rfl, -⟩ | ⟨digits, rfl, hdigits⟩
  · rfl
  · rw [List.any_cons, unmarked_digitsLength digits rest hdigits]
    rfl

/-- What stands after the mark of an exponent. -/
theorem exponentLength_cons (mark : Char) (rest : List Char) :
    exponentLength (mark :: rest) =
      if isExponentMark mark && !rest.head?.any isIdentifierStart then
        1 + seqLength signLength digitsLength rest
      else 0 := by
  unfold exponentLength seqLength isExponentMark
  dsimp only
  split
  · rw [Nat.add_assoc]
  · rfl

/-- An exponent starts with its mark. -/
theorem any_head?_of_exponentLength_pos (h : exponentLength text ≠ 0) :
    ∃ mark more, text = mark :: more ∧ isExponentMark mark = true ∧
      more.head?.any isIdentifierStart = false := by
  cases text with
  | nil => exact absurd rfl h
  | cons mark more =>
    rw [exponentLength_cons] at h
    split at h
    · next hmark =>
      rw [Bool.and_eq_true, Bool.not_eq_true'] at hmark
      exact ⟨mark, more, rfl, hmark⟩
    · exact absurd rfl h

/-- An exponent that is there stays the same, and none may come about where there is none. -/
theorem exponentLength_of_follows (h : exponentLength (text ++ rest) = text.length)
    (hfollows : Follows rest rest') (hnone : text = [] → exponentLength rest' = 0) :
    exponentLength (text ++ rest') = text.length := by
  cases text with
  | nil => exact hnone rfl
  | cons mark text =>
    rw [List.cons_append, exponentLength_cons] at h ⊢
    split at h
    · next hmark =>
      rw [Bool.and_eq_true, Bool.not_eq_true'] at hmark
      have hstart := (hfollows.append_left text).any_head?
        (fun _ hc => isBlank_of_isIdentifierChar (isIdentifierChar_of_isIdentifierStart hc)) hmark.2
      rw [hmark.1, hstart, Bool.not_false, Bool.and_self, if_pos rfl, List.length_cons,
        stable_signLength.seq stable_digitsLength text rest rest' ?_ hfollows]
      · omega
      · rw [List.length_cons] at h
        omega
    · cases h

/-- A mark with a blank after it is an exponent that lacks its digits. -/
theorem exponentLength_mark {mark : Char} (hmark : isExponentMark mark = true)
    (hrest : rest.head?.all isBlank = true) : exponentLength (mark :: rest) = 1 := by
  have hfollows : Follows [] rest := .inl hrest
  have hstart := hfollows.any_head? (p := isIdentifierStart)
    (fun _ hc => isBlank_of_isIdentifierChar (isIdentifierChar_of_isIdentifierStart hc)) rfl
  have hnone := stable_signLength.seq stable_digitsLength [] [] rest rfl hfollows
  rw [List.nil_append] at hnone
  rw [exponentLength_cons, hmark, hstart, hnone]
  rfl

/-- The digits and the fraction of a number. -/
def unsignedLength : List Char → Nat := seqLength digitsLength fractionLength

theorem stable_unsignedLength : Stable unsignedLength :=
  stable_digitsLength.seq stable_fractionLength

theorem unmarked_unsignedLength : Unmarked unsignedLength :=
  unmarked_digitsLength.seq unmarked_fractionLength

theorem decimalLength_eq : decimalLength = seqLength unsignedLength exponentLength := rfl

/-- What a number is after its sign. -/
def magnitudeLength (text : List Char) : Nat :=
  if text.head? = some 'i' then identifierLength text else decimalLength text

theorem numberLength_eq : numberLength = seqLength signLength magnitudeLength := by
  funext text
  unfold numberLength seqLength magnitudeLength
  dsimp only
  split <;> rfl

/-- A number is a sign and then a word, or digits and a fraction and then an exponent. Each of
    these may be empty. -/
theorem numberLength_append_eq_iff :
    numberLength (text ++ rest) = text.length ↔
      ∃ sign body, text = sign ++ body ∧ signLength (sign ++ (body ++ rest)) = sign.length ∧
        (((body ++ rest).head? = some 'i' ∧ identifierLength (body ++ rest) = body.length) ∨
          (body ++ rest).head? ≠ some 'i' ∧ ∃ unsigned exponent, body = unsigned ++ exponent ∧
            unsignedLength (unsigned ++ (exponent ++ rest)) = unsigned.length ∧
            exponentLength (exponent ++ rest) = exponent.length) := by
  rw [numberLength_eq, seqLength_append_eq_iff]
  refine exists_congr fun sign => exists_congr fun body =>
    and_congr_right fun _ => and_congr_right fun _ => ?_
  unfold magnitudeLength
  by_cases hi : (body ++ rest).head? = some 'i'
  · simp [hi]
  · rw [if_neg hi, decimalLength_eq, seqLength_append_eq_iff]
    simp only [hi, false_and, false_or, ne_eq, not_false_eq_true, true_and]

end Pieces

section Numbers

variable {text rest rest' : List Char}

/-- No word takes the place of a number when another text follows. -/
theorem head?_ne_of_follows (hfollows : Follows rest rest') (h : rest.head? ≠ some 'i') :
    rest'.head? ≠ some 'i' := by
  rcases hfollows with hblank | hhead
  · intro hi
    rw [hi] at hblank
    cases hblank
  · rwa [hhead]

/-- A number stays the same before another text, provided that no exponent comes about. -/
theorem numberLength_of_follows (h : numberLength (text ++ rest) = text.length)
    (hfollows : Follows rest rest')
    (hnone : text.any isExponentMark = false → exponentLength rest' = 0) :
    numberLength (text ++ rest') = text.length := by
  obtain ⟨sign, body, rfl, hsign, hbody⟩ := numberLength_append_eq_iff.mp h
  refine numberLength_append_eq_iff.mpr ⟨sign, body, rfl,
    stable_signLength sign _ _ hsign (hfollows.append_left body), ?_⟩
  rw [List.any_append, unmarked_signLength sign _ hsign, Bool.false_or] at hnone
  rcases hbody with ⟨hi, hword⟩ | ⟨hi, unsigned, exponent, rfl, hunsigned, hexponent⟩
  · refine .inl ⟨?_, stable_identifierLength body _ _ hword hfollows⟩
    cases body with
    | nil =>
      -- a word that starts in the text after would have been part of the number
      obtain ⟨more, rfl⟩ := List.head?_eq_some_iff.mp hi
      cases hword
    | cons c body => exact hi
  · refine .inr ⟨head?_ne_of_follows (hfollows.append_left _) hi, unsigned, exponent, rfl,
      stable_unsignedLength unsigned _ _ hunsigned (hfollows.append_left exponent),
      exponentLength_of_follows hexponent hfollows ?_⟩
    rintro rfl
    refine hnone ?_
    rw [List.append_nil, unmarked_unsignedLength unsigned _ hunsigned]

theorem exponentLength_of_not_isIdentifierChar (h : rest.head?.any isIdentifierChar = false) :
    exponentLength rest = 0 := by
  by_contra hpos
  obtain ⟨mark, more, rfl, hmark, -⟩ := any_head?_of_exponentLength_pos hpos
  rw [List.head?_cons, Option.any_some, isIdentifierChar_of_isExponentMark hmark] at h
  cases h

/-- A number without an exponent is digits and a fraction after its sign, or a word. No exponent
    follows it. -/
theorem numberLength_append_of_unmarked (hmark : text.any isExponentMark = false)
    (h : numberLength (text ++ rest) = text.length) :
    exponentLength rest = 0 ∧ (rest.head?.any isIdentifierChar = true →
      ∃ sign unsigned, text = sign ++ unsigned ∧
        signLength (sign ++ (unsigned ++ rest)) = sign.length ∧
        (unsigned ++ rest).head? ≠ some 'i' ∧
        unsignedLength (unsigned ++ rest) = unsigned.length) := by
  obtain ⟨sign, body, rfl, hsign, hbody⟩ := numberLength_append_eq_iff.mp h
  rw [List.any_append, Bool.or_eq_false_iff] at hmark
  rcases hbody with ⟨hi, hword⟩ | ⟨hi, unsigned, exponent, rfl, hunsigned, hexponent⟩
  · have hrest := (length_takeWhile_append_eq_iff.mp hword).2
    refine ⟨exponentLength_of_not_isIdentifierChar hrest, fun hhead => ?_⟩
    rw [hrest] at hhead
    cases hhead
  · have hempty : exponent = [] := by
      cases exponent with
      | nil => rfl
      | cons mark exponent =>
        have hpos : exponentLength (mark :: exponent ++ rest) ≠ 0 := by
          rw [hexponent]
          exact Nat.succ_ne_zero _
        obtain ⟨mark', more, heq, hmark', -⟩ := any_head?_of_exponentLength_pos hpos
        obtain ⟨rfl, -⟩ := List.cons.inj heq
        rw [List.any_append, List.any_cons, hmark'] at hmark
        simp at hmark
    subst hempty
    rw [List.nil_append] at hexponent hunsigned
    rw [List.append_nil] at hi ⊢
    exact ⟨hexponent, fun _ => ⟨sign, unsigned, rfl, by simpa using hsign, hi, hunsigned⟩⟩

/-- Blanks after a mark that starts a symbol right after a number make the mark part of it. -/
theorem numberLength_mark {mark : Char} {more more' : List Char}
    (hmark : text.any isExponentMark = false) (hmark' : isExponentMark mark = true)
    (h : numberLength (text ++ mark :: more) = text.length)
    (hblank : more'.head?.all isBlank = true) :
    numberLength (text ++ mark :: more') = text.length + 1 := by
  obtain ⟨-, hsplit⟩ := numberLength_append_of_unmarked hmark h
  obtain ⟨sign, unsigned, rfl, hsign, hi, hunsigned⟩ :=
    hsplit (isIdentifierChar_of_isExponentMark hmark')
  have hfollows : Follows (mark :: more) (mark :: more') := .inr rfl
  have hnumber : numberLength (sign ++ (unsigned ++ [mark]) ++ more') =
      (sign ++ (unsigned ++ [mark])).length := by
    refine numberLength_append_eq_iff.mpr ⟨sign, unsigned ++ [mark], rfl, ?_, .inr ⟨?_, unsigned,
      [mark], rfl, ?_, exponentLength_mark hmark' hblank⟩⟩
    · have := stable_signLength sign _ _ hsign (hfollows.append_left unsigned)
      simpa using this
    · have := head?_ne_of_follows (hfollows.append_left unsigned) hi
      simpa using this
    · exact stable_unsignedLength unsigned _ _ hunsigned hfollows
  simpa [Nat.add_assoc] using hnumber

end Numbers

/-- How a token comes about, given its first character and what follows that. -/
inductive Found (mode : LexicalMode) (c : Char) (rest : List Char) (kind : TokenKind)
    (length : Nat) : Prop where
  | mark (hkind : TokenKind.punctuation? c = some kind) (hlength : length = 1)
  | symbol (hmark : TokenKind.punctuation? c = none) (hstart : mode = .outside ∧ c.isAlpha = true)
      (hkind : kind = .symbol) (hlength : length = 1 + (rest.takeWhile Char.isLower).length)
  | number (hmark : TokenKind.punctuation? c = none)
      (hsymbol : ¬ (mode = .outside ∧ c.isAlpha = true)) (hstart : isNumberStart c = true)
      (hkind : kind = .number) (hlength : length = numberLength (c :: rest))
  /-- A name in a parameter block, or an infinity. -/
  | word (hmark : TokenKind.punctuation? c = none)
      (hsymbol : ¬ (mode = .outside ∧ c.isAlpha = true)) (hnumber : ¬ isNumberStart c = true)
      (hstart : mode = .block ∧ isIdentifierStart c = true)
      (hkind : kind = if (c :: rest).take length = ['i', 'n', 'f'] then .number else .identifier)
      (hlength : length = identifierLength (c :: rest))

/-- A letter that can start an exponent starts a symbol outside a block, and a word in it. -/
theorem found_of_isExponentMark {mode : LexicalMode} {c : Char} {rest : List Char}
    {kind : TokenKind} {length : Nat} (hc : isExponentMark c = true)
    (h : Found mode c rest kind length) :
    (mode = .outside ∧ kind = .symbol) ∨
      (kind = .number ∨ kind = .identifier) ∧ length = identifierLength (c :: rest) := by
  simp only [isExponentMark, Bool.or_eq_true, beq_iff_eq] at hc
  cases h with
  | mark hkind => rcases hc with rfl | rfl <;> cases hkind
  | symbol hmark hstart hkind hlength => exact .inl ⟨hstart.1, hkind⟩
  | number hmark hsymbol hstart => rcases hc with rfl | rfl <;> cases hstart
  | word hmark hsymbol hnumber hstart hkind hlength =>
    refine .inr ⟨?_, hlength⟩
    rw [hkind]
    split
    · exact .inl rfl
    · exact .inr rfl

/-- Outside a parameter block a lower case letter starts a symbol. -/
theorem kind_of_isLower {c : Char} {rest : List Char} {kind : TokenKind} {length : Nat}
    (hc : c.isLower = true) (h : Found .outside c rest kind length) : kind = .symbol := by
  have halpha : c.isAlpha = true := isAlpha_of_isLower hc
  cases h with
  | mark hkind =>
    unfold TokenKind.punctuation? at hkind
    split at hkind <;> first | cases hc | cases hkind
  | symbol _ _ hkind => exact hkind
  | number _ hsymbol => exact absurd ⟨rfl, halpha⟩ hsymbol
  | word _ hsymbol => exact absurd ⟨rfl, halpha⟩ hsymbol

section Tokens

variable {mode : LexicalMode} {c : Char} {text rest rest' : List Char} {kind : TokenKind}
  {length : Nat}

theorem next?_cons_eq_some_iff :
    next? mode (c :: rest) = some (kind, length) ↔ Found mode c rest kind length := by
  constructor
  · intro h
    rw [next?] at h
    split at h
    · next hkind =>
      cases h
      exact .mark hkind rfl
    · next hmark =>
      split at h
      · next hstart =>
        cases h
        exact .symbol hmark hstart rfl rfl
      · next hsymbol =>
        split at h
        · next hstart =>
          cases h
          exact .number hmark hsymbol hstart rfl rfl
        · next hnumber =>
          split at h
          · next hstart =>
            cases h
            exact .word hmark hsymbol hnumber hstart rfl rfl
          · cases h
  · rintro (⟨hkind, rfl⟩ | ⟨hmark, hstart, rfl, rfl⟩ | ⟨hmark, hsymbol, hstart, rfl, rfl⟩ |
      ⟨hmark, hsymbol, hnumber, hstart, rfl, rfl⟩)
    · rw [next?, hkind]
    · rw [next?, hmark]
      simp only [if_pos hstart]
    · rw [next?, hmark]
      simp only [if_neg hsymbol, if_pos hstart]
    · rw [next?, hmark]
      simp only [if_neg hsymbol, if_neg hnumber, if_pos hstart]

theorem punctuation?_ne_number (c : Char) : TokenKind.punctuation? c ≠ some .number := by
  unfold TokenKind.punctuation?
  split <;> nofun

/-- A token stays the same before another text, provided that no exponent of a number comes
    about. -/
theorem next?_of_follows (h : next? mode (text ++ rest) = some (kind, text.length))
    (hfollows : Follows rest rest')
    (hnone : kind = .number → text.any isExponentMark = false → exponentLength rest' = 0) :
    next? mode (text ++ rest') = some (kind, text.length) := by
  cases text with
  | nil => exact absurd (next?_pos h) (Nat.lt_irrefl 0)
  | cons c more =>
    rw [List.cons_append, next?_cons_eq_some_iff] at h ⊢
    cases h with
    | mark hkind hlength => exact .mark hkind hlength
    | symbol hmark hstart hkind hlength =>
      rw [List.length_cons, Nat.add_comm, Nat.add_left_cancel_iff] at hlength
      have hlower := stable_takeWhile
        (fun _ hc => isBlank_of_isIdentifierChar (isIdentifierChar_of_isLower hc)) more rest rest'
        hlength.symm hfollows
      refine .symbol hmark hstart hkind ?_
      rw [List.length_cons, Nat.add_comm, ← hlower]
    | number hmark hsymbol hstart hkind hlength =>
      exact .number hmark hsymbol hstart hkind
        (numberLength_of_follows hlength.symm hfollows (hnone hkind)).symm
    | word hmark hsymbol hnumber hstart hkind hlength =>
      have hlength' := stable_identifierLength (c :: more) rest rest' hlength.symm hfollows
      rw [← List.cons_append, List.take_left] at hkind
      refine .word hmark hsymbol hnumber hstart ?_ hlength'.symm
      rw [← List.cons_append, List.take_left]
      exact hkind

/-- No exponent follows a number that has none. -/
theorem exponentLength_of_next? (h : next? mode (text ++ rest) = some (.number, text.length))
    (hmark : text.any isExponentMark = false) : exponentLength rest = 0 := by
  cases text with
  | nil => exact absurd (next?_pos h) (Nat.lt_irrefl 0)
  | cons c more =>
    rw [List.cons_append, next?_cons_eq_some_iff] at h
    cases h with
    | mark hkind hlength => exact absurd hkind (punctuation?_ne_number c)
    | symbol hmark hstart hkind hlength => cases hkind
    | number _ _ _ _ hlength => exact (numberLength_append_of_unmarked hmark hlength.symm).1
    | word _ _ _ _ _ hlength =>
      -- an infinity would go on with the letter
      have hword : identifierLength (c :: more ++ rest) = (c :: more).length := hlength.symm
      have hrest := (length_takeWhile_append_eq_iff.mp hword).2
      exact exponentLength_of_not_isIdentifierChar hrest

/-- Outside a block a number goes on with a mark if a blank comes after the mark. -/
theorem next?_of_mark {mark : Char} {more more' : List Char}
    (h : next? .outside (text ++ mark :: more) = some (.number, text.length))
    (hmark : text.any isExponentMark = false) (hmark' : isExponentMark mark = true)
    (hblank : more'.head?.all isBlank = true) :
    next? .outside (text ++ mark :: more') = some (.number, text.length + 1) := by
  cases text with
  | nil => exact absurd (next?_pos h) (Nat.lt_irrefl 0)
  | cons c text =>
    rw [List.cons_append, next?_cons_eq_some_iff] at h ⊢
    cases h with
    | mark hkind hlength => exact absurd hkind (punctuation?_ne_number c)
    | symbol hmark hstart hkind hlength => cases hkind
    | number hpunctuation hsymbol hstart hkind hlength =>
      exact .number hpunctuation hsymbol hstart hkind
        (numberLength_mark hmark hmark' hlength.symm hblank).symm
    | word _ _ _ hstart => cases hstart.1

end Tokens

end Lexeme

end CircuitCode
