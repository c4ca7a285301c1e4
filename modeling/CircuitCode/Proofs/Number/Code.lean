import CircuitCode.Number.Reading
import CircuitCode.Number.Text
import CircuitCode.Proofs.Number.Digits
import CircuitCode.Proofs.Text.Span

/-!
# Reading back the numbers of circuit code

Every number but one that is not a number reads back from its text, as `Number.reread`. Reading
back keeps the order (`Number.reread_le_reread`), so rounding never lets a value pass its limits.
-/

namespace CircuitCode

namespace Digits

/-- There is a digit, and all are decimal digits. -/
structure WellFormed (d : Digits) : Prop where
  ne_nil : d.digits ≠ []
  isDigit : ∀ c ∈ d.digits, c.isDigit = true

theorem isDigit_of_mem_replicate {count : Nat} {c : Char} (hc : c ∈ List.replicate count '0') :
    c.isDigit = true := by
  rw [(List.mem_replicate.mp hc).2]
  rfl

theorem wellFormed_ofNat (digits : Nat) (place : Int) : (ofNat digits place).WellFormed :=
  ⟨Nat.toDigits_ne_nil, fun _ hmem => Nat.isDigit_of_mem_toDigits (by decide) (by decide) hmem⟩

theorem wellFormed_rounded (units decimals : Nat) : (rounded units decimals).WellFormed := by
  unfold rounded
  split
  · exact ⟨by simp, fun c hmem => isDigit_of_mem_replicate hmem⟩
  · dsimp only
    split
    · exact wellFormed_ofNat _ _
    · exact wellFormed_ofNat _ _

/-- Scientific notation starts with a digit. -/
theorem scientific_eq_cons {d : Digits} (hd : d.WellFormed) (style : ExponentStyle) :
    ∃ c rest, d.scientific style = c :: rest ∧ c.isDigit = true := by
  obtain ⟨hne, hdigits⟩ := hd
  unfold scientific
  rcases hrun : d.digits with _ | ⟨first, _ | ⟨second, rest⟩⟩
  · exact absurd hrun hne
  · exact ⟨first, _, rfl, hdigits first (by simp [hrun])⟩
  · exact ⟨first, _, rfl, hdigits first (by simp [hrun])⟩

theorem isDigit_padded {width n : Nat} : ∀ c ∈ padded width n, c.isDigit = true := by
  intro c hmem
  rcases List.mem_append.mp hmem with hmem | hmem
  · exact isDigit_of_mem_replicate hmem
  · exact Nat.isDigit_of_mem_toDigits (by decide) (by decide) hmem

theorem padded_ne_nil {width n : Nat} : padded width n ≠ [] := by
  simp [padded]

theorem ofDigitChars_padded (width n : Nat) : Nat.ofDigitChars 10 (padded width n) 0 = n := by
  rw [padded, Nat.ofDigitChars_append, Nat.ofDigitChars_replicate_zero, Nat.mul_zero,
    Nat.ofDigitChars_ten_toDigits]

end Digits

namespace Number

open Digits

/-- A digit is not the start of anything else in a number. -/
theorem ne_of_isDigit {c : Char} (h : c.isDigit = true) :
    c ≠ '-' ∧ c ≠ '+' ∧ c ≠ 'i' ∧ c ≠ 'n' ∧ c ≠ '.' := by
  refine ⟨?_, ?_, ?_, ?_, ?_⟩ <;> (rintro rfl; cases h)

theorem toLower_of_isDigit {c : Char} (h : c.isDigit = true) : c.toLower = c := by
  rw [Char.isDigit_iff_toNat] at h
  unfold Char.toLower
  split
  · next hupper =>
    have hle := UInt32.le_iff_toNat_le.mp hupper.1
    have hnine : '9'.toNat < 'A'.val.toNat := by decide
    exact absurd (Nat.le_trans hle h.2) (Nat.not_le.mpr hnine)
  · rfl

theorem splitSign_digit {c : Char} {rest : List Char} (h : c.isDigit = true) :
    splitSign (c :: rest) = (false, c :: rest) := by
  obtain ⟨hminus, hplus, -⟩ := ne_of_isDigit h
  unfold splitSign
  split <;> simp_all

theorem readInteger_of_splitSign {text digits : List Char} {negative : Bool}
    (hsign : splitSign text = (negative, digits)) (hne : digits ≠ [])
    (hdigits : ∀ c ∈ digits, c.isDigit = true) :
    readInteger text =
      some (if negative then -(Nat.ofDigitChars 10 digits 0 : Int)
        else Nat.ofDigitChars 10 digits 0) := by
  have hempty : digits.isEmpty = false := by simpa using hne
  have hall : digits.all Char.isDigit = true := by simpa using hdigits
  unfold readInteger
  rw [hsign]
  simp [hempty, hall]

theorem readExponent_write {style : ExponentStyle} (hmark : style.mark = 'e' ∨ style.mark = 'E')
    (exponent : Int) : readExponent (style.write exponent) = some exponent := by
  have hread {text : List Char} {negative : Bool}
      (hsign : splitSign text = (negative, padded style.width exponent.natAbs)) :
      readInteger text = some (if negative then -(exponent.natAbs : Int) else exponent.natAbs) := by
    rw [readInteger_of_splitSign hsign padded_ne_nil isDigit_padded, ofDigitChars_padded]
  unfold ExponentStyle.write readExponent
  dsimp only
  rw [if_pos hmark]
  split
  · next hneg =>
    rw [List.singleton_append, hread rfl, if_pos rfl]
    congr 1
    omega
  · next hnonneg =>
    have hsign : splitSign ((if style.plus then ['+'] else []) ++
        padded style.width exponent.natAbs) = (false, padded style.width exponent.natAbs) := by
      split
      · rfl
      · rw [List.nil_append]
        cases hdigits : padded style.width exponent.natAbs with
        | nil => rfl
        | cons c rest =>
          exact splitSign_digit (isDigit_padded c (by rw [hdigits]; exact List.mem_cons_self))
    rw [hread hsign]
    simp only [Bool.false_eq_true, ↓reduceIte, Option.some.injEq]
    omega

/-- A decimal reads back as its digits, whatever the style of its exponent. -/
theorem readDecimal_scientific {style : ExponentStyle}
    (hmark : style.mark = 'e' ∨ style.mark = 'E') (negative : Bool) {d : Digits}
    (hd : d.WellFormed) :
    readDecimal negative (d.scientific style) =
      some (ofDecimal negative (Nat.ofDigitChars 10 d.digits 0)
        (d.exponent - (d.digits.length - 1))) := by
  obtain ⟨hne, hdigits⟩ := hd
  obtain ⟨tail, htail⟩ : ∃ tail, style.write d.exponent = style.mark :: tail := ⟨_, rfl⟩
  have hexponent := readExponent_write hmark d.exponent
  have hhead : (style.mark :: tail).head?.any Char.isDigit = false := by
    rcases hmark with hmark | hmark <;> rw [hmark] <;> rfl
  have hpoint : style.mark ≠ '.' := by
    rcases hmark with hmark | hmark <;> rw [hmark] <;> decide
  rw [Digits.scientific, htail]
  rw [htail] at hexponent
  unfold readDecimal
  rcases hrun : d.digits with _ | ⟨first, _ | ⟨second, rest⟩⟩
  · exact absurd hrun hne
  · rw [hrun] at hdigits
    have hfraction : splitFraction (style.mark :: tail) = ([], style.mark :: tail) := by
      unfold splitFraction
      split
      · next heq => exact absurd (List.cons.inj heq).1 hpoint
      · rfl
    rw [significand, takeWhile_append_of_head? hdigits hhead,
      dropWhile_append_of_head? hdigits hhead, hfraction]
    simp [hexponent]
  · rw [hrun] at hdigits
    obtain ⟨hfirst, hothers⟩ := List.forall_mem_cons.mp hdigits
    have hwhole : ∀ c ∈ [first], c.isDigit = true := by simpa using hfirst
    have hstop : ('.' :: (second :: rest ++ style.mark :: tail)).head?.any Char.isDigit = false :=
      rfl
    have htext : significand (first :: second :: rest) ++ style.mark :: tail =
      [first] ++ '.' :: (second :: rest ++ style.mark :: tail) := rfl
    rw [htext, takeWhile_append_of_head? hwhole hstop, dropWhile_append_of_head? hwhole hstop,
      splitFraction, takeWhile_append_of_head? hothers hhead,
      dropWhile_append_of_head? hothers hhead]
    simp [hexponent]

theorem code_infinite (negative : Bool) (decimals : Nat) :
    (infinite negative).code decimals = if negative then "-inf" else "inf" := by
  have hpos := outOfRange_pos
  have hrank : (infinite negative).rank ≠ 0 := by
    cases negative <;> simp only [rank, Bool.false_eq_true, ↓reduceIte] <;> omega
  unfold code
  dsimp only
  rw [if_neg fun h => hrank h.1]
  rfl

theorem code_finite (negative : Bool) (units : Nat) (h : Representable units) (decimals : Nat) :
    (finite negative units h).code decimals =
      String.ofList ((if negative && units != 0 then ['-'] else []) ++
        (rounded units decimals).scientific codeExponentStyle) := by
  unfold code
  dsimp only
  by_cases hzero : units = 0
  · subst hzero
    rw [if_pos ⟨by cases negative <;> rfl, rfl⟩]
    simp [zero, write]
  · have hrank : (finite negative units h).rank ≠ 0 := by
      cases negative <;> simp only [rank, Bool.false_eq_true, ↓reduceIte] <;> omega
    rw [if_neg fun h => hrank h.1]
    simp [write, hzero]

/-- What reading back the text of a number gives. A zero has no sign there. -/
def reread (decimals : Nat) : Number → Number
  | nan negative => nan negative
  | infinite negative => infinite negative
  | finite negative units _ =>
    let d := Digits.rounded units decimals
    ofDecimal (negative && units != 0) (Nat.ofDigitChars 10 d.digits 0)
      (d.exponent - (d.digits.length - 1))

theorem isNaN_ofDecimal (negative : Bool) (digits : Nat) (exponent : Int) :
    (ofDecimal negative digits exponent).isNaN = false := by
  rw [ofDecimal_eq_ofQuotient]
  unfold ofQuotient
  dsimp only
  split <;> rfl

@[simp] theorem isNaN_reread (decimals : Nat) (x : Number) :
    (x.reread decimals).isNaN = x.isNaN := by
  cases x with
  | nan negative => rfl
  | infinite negative => rfl
  | finite negative units h => exact isNaN_ofDecimal _ _ _

theorem readWord_digit {negative : Bool} {c : Char} {rest : List Char} (h : c.isDigit = true) :
    readWord negative (c :: rest) = none := by
  obtain ⟨-, -, hi, hn, -⟩ := ne_of_isDigit h
  unfold readWord
  simp [toLower_of_isDigit h, hi, hn]

/-- What starts with a digit is read as a decimal, with or without a sign. -/
theorem ofChars?_of_isDigit (negative : Bool) {c : Char} {rest : List Char}
    (hc : c.isDigit = true) :
    ofChars? ((if negative then ['-'] else []) ++ c :: rest) =
      readDecimal negative (c :: rest) := by
  have hsign : splitSign ((if negative then ['-'] else []) ++ c :: rest) =
      (negative, c :: rest) := by
    cases negative with
    | true => rfl
    | false => exact splitSign_digit hc
  unfold ofChars?
  rw [hsign]
  dsimp only
  rw [readWord_digit hc]
  rfl

/-- Digits with an exponent are a written form of a number, with or without a sign. -/
theorem ofChars?_scientific (style : ExponentStyle)
    (hmark : style.mark = 'e' ∨ style.mark = 'E') (negative : Bool) {d : Digits}
    (hd : d.WellFormed) :
    ofChars? ((if negative then ['-'] else []) ++ d.scientific style) =
      some (ofDecimal negative (Nat.ofDigitChars 10 d.digits 0)
        (d.exponent - (d.digits.length - 1))) := by
  obtain ⟨c, rest, htext, hc⟩ := scientific_eq_cons hd style
  rw [← readDecimal_scientific hmark negative hd, htext]
  exact ofChars?_of_isDigit negative hc

/-- Every number but one that is not a number reads back from circuit code. -/
theorem ofLiteral?_code {x : Number} (hx : x.isNaN = false) (decimals : Nat) :
    ofLiteral? (x.code decimals) = some (x.reread decimals) := by
  cases x with
  | nan negative => cases hx
  | infinite negative =>
    rw [code_infinite]
    cases negative <;> rfl
  | finite negative units h =>
    have hread := ofChars?_scientific codeExponentStyle (Or.inr rfl)
      (negative && units != 0) (wellFormed_rounded units decimals)
    have hnan := isNaN_ofDecimal (negative && units != 0)
      (Nat.ofDigitChars 10 (rounded units decimals).digits 0)
      ((rounded units decimals).exponent - ((rounded units decimals).digits.length - 1))
    rw [ofLiteral?, ofText?, code_finite, String.toList_ofList, hread, Option.filter_some, hnan]
    rfl

theorem rank_ofDecimal_true (digits : Nat) (exponent : Int) :
    (ofDecimal true digits exponent).rank = -(ofDecimal false digits exponent).rank := by
  rw [ofDecimal_eq_ofQuotient, ofQuotient_true, rank_neg, ofDecimal_eq_ofQuotient]

theorem rank_ofDecimal_nonneg (digits : Nat) (exponent : Int) :
    0 ≤ (ofDecimal false digits exponent).rank := by
  rw [ofDecimal_eq_ofQuotient, rank_ofQuotient]
  omega

theorem rank_bounds (x : Number) : -(outOfRange : Int) ≤ x.rank ∧ x.rank ≤ outOfRange := by
  have hpos := outOfRange_pos
  cases x with
  | nan negative =>
    simp only [rank]
    omega
  | infinite negative =>
    cases negative <;> simp only [rank, Bool.false_eq_true, ↓reduceIte] <;> omega
  | finite negative units h =>
    have hlt := h.1
    cases negative <;> simp only [rank, Bool.false_eq_true, ↓reduceIte] <;> omega

/-- Where reading back leaves a positive number. -/
def rereadRank (decimals units : Nat) : Int :=
  let d := Digits.rounded units decimals
  (ofDecimal false (Nat.ofDigitChars 10 d.digits 0) (d.exponent - (d.digits.length - 1))).rank

theorem rereadRank_nonneg (decimals units : Nat) : 0 ≤ rereadRank decimals units :=
  rank_ofDecimal_nonneg _ _

theorem rereadRank_mono {units units' : Nat} (h : units ≤ units') (decimals : Nat) :
    rereadRank decimals units ≤ rereadRank decimals units' :=
  rank_ofDecimal_le (value_rounded_mono h decimals)

theorem rereadRank_zero (decimals : Nat) : rereadRank decimals 0 = 0 := by
  unfold rereadRank Digits.rounded
  dsimp only
  rw [if_pos rfl, Nat.ofDigitChars_replicate_zero, Nat.mul_zero]
  simp [ofDecimal, rank]

theorem rank_reread_finite (negative : Bool) (units : Nat) (h : Representable units)
    (decimals : Nat) :
    ((finite negative units h).reread decimals).rank =
      if negative then -rereadRank decimals units else rereadRank decimals units := by
  by_cases hzero : units = 0
  · subst hzero
    have hflag : (negative && (0 : Nat) != 0) = false := by cases negative <;> rfl
    have hrank : ((finite negative 0 h).reread decimals).rank = rereadRank decimals 0 := by
      simp only [reread, hflag]
      rfl
    rw [hrank, rereadRank_zero]
    cases negative <;> rfl
  · have hflag : (negative && units != 0) = negative := by simp [hzero]
    simp only [reread, hflag]
    cases negative with
    | true => exact rank_ofDecimal_true _ _
    | false => rfl

/-- Reading back keeps the order of numbers. -/
theorem reread_le_reread {x y : Number} (h : x ≤ y) (decimals : Nat) :
    x.reread decimals ≤ y.reread decimals := by
  obtain ⟨hx, hy, hle⟩ := le_iff.mp h
  refine le_iff.mpr ⟨by rwa [isNaN_reread], by rwa [isNaN_reread], ?_⟩
  have hboundx := rank_bounds (x.reread decimals)
  have hboundy := rank_bounds (y.reread decimals)
  cases x with
  | nan negative => cases hx
  | infinite negative =>
    cases negative with
    | true => exact hboundy.1
    | false =>
      cases y with
      | nan negative => cases hy
      | infinite negative => exact hle
      | finite negative units hunits =>
        have hlt := hunits.1
        cases negative <;> simp only [rank, Bool.false_eq_true, ↓reduceIte] at hle <;> omega
  | finite negative units hunits =>
    cases y with
    | nan negative => cases hy
    | infinite negative' =>
      cases negative' with
      | false => exact hboundx.2
      | true =>
        have hlt := hunits.1
        cases negative <;> simp only [rank, Bool.false_eq_true, ↓reduceIte] at hle <;> omega
    | finite negative' units' hunits' =>
      rw [rank_reread_finite, rank_reread_finite]
      have hpos := rereadRank_nonneg decimals units
      have hpos' := rereadRank_nonneg decimals units'
      have hzero := rereadRank_zero decimals
      cases negative <;> cases negative' <;>
        simp only [rank, Bool.false_eq_true, ↓reduceIte] at hle ⊢
      · exact rereadRank_mono (by omega) decimals
      · obtain rfl : units = 0 := by omega
        obtain rfl : units' = 0 := by omega
        omega
      · omega
      · have := rereadRank_mono (show units' ≤ units by omega) decimals
        omega

/-- A number other than zero is known by its rank. -/
theorem eq_of_rank_eq {x y : Number} (hx : x.isNaN = false) (hy : y.isNaN = false)
    (hrank : x.rank = y.rank) (hne : x.rank ≠ 0) : x = y := by
  have hpos := outOfRange_pos
  cases x with
  | nan negative => cases hx
  | infinite negative =>
    cases y with
    | nan negative' => cases hy
    | infinite negative' =>
      cases negative <;> cases negative' <;>
        simp only [rank, Bool.false_eq_true, ↓reduceIte] at hrank <;> first | rfl | omega
    | finite negative' units' h' =>
      have hlt := h'.1
      cases negative <;> cases negative' <;>
        simp only [rank, Bool.false_eq_true, ↓reduceIte] at hrank <;> omega
  | finite negative units h =>
    cases y with
    | nan negative' => cases hy
    | infinite negative' =>
      have hlt := h.1
      cases negative <;> cases negative' <;>
        simp only [rank, Bool.false_eq_true, ↓reduceIte] at hrank <;> omega
    | finite negative' units' h' =>
      cases negative <;> cases negative' <;>
        simp only [rank, Bool.false_eq_true, ↓reduceIte] at hrank hne <;>
        first
        | (obtain rfl : units = units' := by omega); rfl
        | omega

end Number

end CircuitCode
