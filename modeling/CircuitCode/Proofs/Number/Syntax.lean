import CircuitCode.Proofs.Number.Code

/-!
# The written forms of numbers

A text is read as a number exactly if it is one of the written forms: a sign, which may be missing,
and then a decimal or a word for infinity (`Number.ofChars?_iff`).
-/

namespace CircuitCode

namespace Number

/-- Digits, of which there may be none. -/
def AllDigits (text : List Char) : Prop := ∀ c ∈ text, c.isDigit = true

/-- A sign, which may be missing. -/
inductive SignText : List Char → Prop where
  | none : SignText []
  | minus : SignText ['-']
  | plus : SignText ['+']

/-- A point and the given digits after it, which may be missing together. -/
inductive FractionText : List Char → List Char → Prop where
  | none : FractionText [] []
  | point {digits : List Char} (hdigits : AllDigits digits) : FractionText ('.' :: digits) digits

/-- An exponent, which may be missing. -/
inductive ExponentText : List Char → Prop where
  | none : ExponentText []
  | present {mark : Char} {sign digits : List Char} (hmark : mark = 'e' ∨ mark = 'E')
      (hsign : SignText sign) (hne : digits ≠ []) (hdigits : AllDigits digits) :
      ExponentText (mark :: (sign ++ digits))

/-- A decimal with the given digits before the point. There is a digit before the point or after
    it. -/
inductive DecimalText (whole : List Char) : List Char → Prop where
  | mk {fraction digits exponent : List Char} (hwhole : AllDigits whole)
      (hfraction : FractionText fraction digits) (hne : whole ≠ [] ∨ digits ≠ [])
      (hexponent : ExponentText exponent) : DecimalText whole (whole ++ (fraction ++ exponent))

/-- A word for infinity, in any case. -/
def InfinityText (text : List Char) : Prop :=
  text.map Char.toLower = ['i', 'n', 'f'] ∨
    text.map Char.toLower = ['i', 'n', 'f', 'i', 'n', 'i', 't', 'y']

theorem AllDigits.head? {text : List Char} (h : AllDigits text) {p : Char → Bool}
    (hp : ∀ c : Char, c.isDigit = true → p c = false) : text.head?.any p = false := by
  cases text with
  | nil => rfl
  | cons c text => exact hp c (h c List.mem_cons_self)

section Sign

theorem SignText.splitSign {sign text : List Char} (h : SignText sign)
    (htext : text.head?.any (fun c => c == '-' || c == '+') = false) :
    Number.splitSign (sign ++ text) = (sign == ['-'], text) := by
  cases h with
  | minus => rfl
  | plus => rfl
  | none =>
    cases text with
    | nil => rfl
    | cons c text =>
      simp only [List.head?_cons, Option.any_some, Bool.or_eq_false_iff, beq_eq_false_iff_ne,
        ne_eq] at htext
      unfold Number.splitSign
      split <;> simp_all

theorem exists_splitSign (text : List Char) :
    ∃ sign, SignText sign ∧ text = sign ++ (splitSign text).2 := by
  unfold splitSign
  split
  · exact ⟨_, .minus, rfl⟩
  · exact ⟨_, .plus, rfl⟩
  · exact ⟨_, .none, rfl⟩

theorem not_sign_of_isDigit (c : Char) (h : c.isDigit = true) : (c == '-' || c == '+') = false := by
  obtain ⟨hminus, hplus, -⟩ := ne_of_isDigit h
  simp [hminus, hplus]

end Sign

/-- An integer is a run of digits, with a sign or without. -/
theorem isSome_readInteger_iff {text : List Char} :
    (readInteger text).isSome = true ↔
      ∃ sign digits, text = sign ++ digits ∧ SignText sign ∧ digits ≠ [] ∧ AllDigits digits := by
  have hread : (readInteger text).isSome = true ↔
      (splitSign text).2 ≠ [] ∧ AllDigits (splitSign text).2 := by
    unfold readInteger
    generalize splitSign text = parts
    simp [AllDigits]
  rw [hread]
  constructor
  · rintro ⟨hne, hdigits⟩
    obtain ⟨sign, hsign, htext⟩ := exists_splitSign text
    exact ⟨sign, _, htext, hsign, hne, hdigits⟩
  · rintro ⟨sign, digits, rfl, hsign, hne, hdigits⟩
    rw [hsign.splitSign (hdigits.head? not_sign_of_isDigit)]
    exact ⟨hne, hdigits⟩

theorem isSome_readExponent_iff {text : List Char} :
    (readExponent text).isSome = true ↔ ExponentText text := by
  cases text with
  | nil => exact iff_of_true rfl .none
  | cons mark text =>
    rw [readExponent]
    constructor
    · intro h
      split at h
      · next hmark =>
        obtain ⟨sign, digits, rfl, hsign, hne, hdigits⟩ := isSome_readInteger_iff.mp h
        exact .present hmark hsign hne hdigits
      · cases h
    · intro h
      generalize htext : mark :: text = exponent at h
      cases h with
      | none => cases htext
      | present hmark hsign hne hdigits =>
        obtain ⟨rfl, rfl⟩ := List.cons.inj htext
        rw [if_pos hmark]
        exact isSome_readInteger_iff.mpr ⟨_, _, rfl, hsign, hne, hdigits⟩

section Decimal

variable {whole text : List Char}

/-- No digit starts an exponent, and neither does a point. -/
theorem ExponentText.head? {exponent : List Char} (h : ExponentText exponent) :
    exponent.head?.any Char.isDigit = false ∧ exponent.head? ≠ some '.' := by
  cases h with
  | none => exact ⟨rfl, nofun⟩
  | present hmark => rcases hmark with rfl | rfl <;> exact ⟨rfl, by simp⟩

theorem FractionText.splitFraction {fraction digits exponent : List Char}
    (h : FractionText fraction digits) (hexponent : ExponentText exponent) :
    Number.splitFraction (fraction ++ exponent) = (digits, exponent) := by
  obtain ⟨hdigit, hpoint⟩ := hexponent.head?
  cases h with
  | none =>
    rw [List.nil_append]
    unfold Number.splitFraction
    split
    · simp at hpoint
    · rfl
  | point hdigits =>
    rw [List.cons_append, Number.splitFraction, takeWhile_append_of_head? hdigits hdigit,
      dropWhile_append_of_head? hdigits hdigit]

theorem exists_splitFraction (text : List Char) : ∃ fraction,
    FractionText fraction (splitFraction text).1 ∧ text = fraction ++ (splitFraction text).2 := by
  unfold splitFraction
  split
  · next rest =>
    exact ⟨'.' :: rest.takeWhile Char.isDigit, .point fun c hc => List.mem_takeWhile_imp hc,
      congrArg (List.cons '.') List.takeWhile_append_dropWhile.symm⟩
  · exact ⟨[], .none, rfl⟩

/-- A text is read as a decimal exactly if it is one. -/
theorem isSome_readDecimal_iff (negative : Bool) :
    (readDecimal negative text).isSome = true ↔ ∃ whole, DecimalText whole text := by
  constructor
  · intro h
    unfold readDecimal at h
    obtain ⟨fraction, hfraction, hdrop⟩ := exists_splitFraction (text.dropWhile Char.isDigit)
    have htext := List.takeWhile_append_dropWhile (p := Char.isDigit) (l := text)
    generalize splitFraction (text.dropWhile Char.isDigit) = parts at h hfraction hdrop
    obtain ⟨digits, exponent⟩ := parts
    dsimp only at h hfraction hdrop
    split at h
    · cases h
    · next hne =>
      rw [Option.isSome_map] at h
      have hdigits : text.takeWhile Char.isDigit ≠ [] ∨ digits ≠ [] := by
        simpa [Classical.or_iff_not_imp_left] using hne
      have hdecimal := DecimalText.mk (fun c hc => List.mem_takeWhile_imp hc) hfraction hdigits
        (isSome_readExponent_iff.mp h)
      rw [← hdrop, htext] at hdecimal
      exact ⟨_, hdecimal⟩
  · rintro ⟨whole, h⟩
    cases h with
    | @mk fraction digits exponent hwhole hfraction hne hexponent =>
      have hhead : (fraction ++ exponent).head?.any Char.isDigit = false := by
        cases hfraction with
        | none => exact hexponent.head?.1
        | point => rfl
      unfold readDecimal
      rw [takeWhile_append_of_head? hwhole hhead, dropWhile_append_of_head? hwhole hhead,
        hfraction.splitFraction hexponent]
      have hempty : (whole.isEmpty && digits.isEmpty) = false := by
        rcases hne with hne | hne <;> simp [hne]
      dsimp only
      rw [hempty, if_neg Bool.false_ne_true, Option.isSome_map]
      exact isSome_readExponent_iff.mpr hexponent

theorem isNaN_of_readDecimal {negative : Bool} {x : Number}
    (h : readDecimal negative text = some x) : x.isNaN = false := by
  unfold readDecimal at h
  dsimp only at h
  split at h
  · cases h
  · obtain ⟨exponent, -, rfl⟩ := Option.map_eq_some_iff.mp h
    exact isNaN_ofDecimal _ _ _

/-- A decimal starts with a digit or a point. -/
theorem DecimalText.exists_cons (h : DecimalText whole text) :
    ∃ c more, text = c :: more ∧ (c.isDigit = true ∨ c = '.') := by
  cases h with
  | @mk fraction digits exponent hwhole hfraction hne hexponent =>
    cases whole with
    | cons c whole => exact ⟨c, _, rfl, .inl (hwhole c List.mem_cons_self)⟩
    | nil =>
      cases hfraction with
      | none => simp at hne
      | point => exact ⟨'.', _, rfl, .inr rfl⟩

theorem DecimalText.readWord_eq_none (h : DecimalText whole text) (negative : Bool) :
    readWord negative text = none := by
  obtain ⟨c, more, rfl, hc | rfl⟩ := h.exists_cons
  · exact readWord_digit hc
  · have hpoint : '.'.toLower = '.' := by decide
    simp [readWord, hpoint]

end Decimal

theorem InfinityText.readWord_eq {text : List Char} (h : InfinityText text) (negative : Bool) :
    readWord negative text = some (.infinite negative) := by
  unfold readWord
  exact if_pos h

theorem InfinityText.exists_cons {text : List Char} (h : InfinityText text) :
    ∃ c more, text = c :: more ∧ c.toLower = 'i' := by
  rcases h with h | h
  all_goals
    obtain ⟨c, more, rfl, hc, -⟩ := List.map_eq_cons_iff.mp h
    exact ⟨c, more, rfl, hc⟩

/-- No sign stands where a decimal or a word for infinity starts. -/
theorem not_sign_of_magnitude {text : List Char}
    (h : InfinityText text ∨ ∃ whole, DecimalText whole text) :
    text.head?.any (fun c => c == '-' || c == '+') = false := by
  rcases h with h | ⟨whole, h⟩
  · obtain ⟨c, more, rfl, hlower⟩ := h.exists_cons
    have hminus : c ≠ '-' := by
      rintro rfl
      exact absurd hlower (by decide)
    have hplus : c ≠ '+' := by
      rintro rfl
      exact absurd hlower (by decide)
    simp [hminus, hplus]
  · obtain ⟨c, more, rfl, hc | rfl⟩ := h.exists_cons
    · exact not_sign_of_isDigit c hc
    · rfl

/-- A text is read as a number exactly if it is a decimal or a word for infinity, with a sign or
    without. -/
theorem exists_ofLiteral?_iff {text : List Char} :
    (∃ x, ofLiteral? (.ofList text) = some x) ↔
      ∃ sign magnitude, text = sign ++ magnitude ∧ SignText sign ∧
        (InfinityText magnitude ∨ ∃ whole, DecimalText whole magnitude) := by
  unfold ofLiteral? ofText?
  rw [String.toList_ofList]
  constructor
  · rintro ⟨x, h⟩
    obtain ⟨hread, hnumber⟩ := Option.filter_eq_some_iff.mp h
    obtain ⟨sign, hsign, htext⟩ := exists_splitSign text
    refine ⟨sign, _, htext, hsign, ?_⟩
    unfold ofChars? at hread
    generalize splitSign text = parts at hread
    obtain ⟨negative, magnitude⟩ := parts
    dsimp only at hread ⊢
    rcases Option.or_eq_some_iff.mp hread with hword | ⟨-, hdecimal⟩
    · left
      unfold readWord at hword
      dsimp only at hword
      split at hword
      · assumption
      · split at hword
        · cases hword
          cases hnumber
        · cases hword
    · exact .inr ((isSome_readDecimal_iff _).mp (Option.isSome_of_eq_some hdecimal))
  · rintro ⟨sign, magnitude, rfl, hsign, hmagnitude⟩
    unfold ofChars?
    rw [hsign.splitSign (not_sign_of_magnitude hmagnitude)]
    dsimp only
    rcases hmagnitude with hword | ⟨whole, hdecimal⟩
    · rw [hword.readWord_eq]
      exact ⟨_, rfl⟩
    · obtain ⟨x, hx⟩ := Option.isSome_iff_exists.mp
        ((isSome_readDecimal_iff (sign == ['-'])).mpr ⟨whole, hdecimal⟩)
      rw [hdecimal.readWord_eq_none, hx]
      exact ⟨x, Option.filter_eq_some_iff.mpr ⟨rfl, by simp [isNaN_of_readDecimal hx]⟩⟩

end Number

end CircuitCode
