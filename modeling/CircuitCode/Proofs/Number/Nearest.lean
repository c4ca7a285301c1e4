import CircuitCode.Proofs.Number.Code
import CircuitCode.Proofs.Number.HalfWay

/-!
# Sixteen decimals are enough

A decimal that is closer to a number than `2^-54` of it denotes that number
(`Number.rank_ofDecimal_of_close`): numbers next to each other are twice that far apart, even below
a power of two. The digits with sixteen decimals are as close, so from there on a number is read
back from its text (`Number.reread_eq_self`).
-/

namespace CircuitCode

namespace Number

open Digits

section

variable {units num den : Nat}

/-- A quotient that is closer to a representable count than `2^-54` of it. -/
structure Close (units num den : Nat) : Prop where
  low : units * den * 2 ^ 54 < num * 2 ^ 54 + units * den
  high : num * 2 ^ 54 < units * den * 2 ^ 54 + units * den

/-- A close quotient is nearer than half way to the neighbours, even below a power of two. -/
theorem Close.roundsTo (hclose : Close units num den) (h : Representable units) :
    RoundsTo units num den := by
  obtain ⟨significand, hcount, hsignificand, -⟩ := h.exists_significand
  have hbits : significand * (gap units * den) ≤ (2 ^ 53 - 1) * (gap units * den) :=
    Nat.mul_le_mul_right _ (by omega)
  rw [← Nat.mul_assoc, ← hcount] at hbits
  obtain ⟨hlow, hhigh⟩ := hclose
  rw [Nat.mul_comm num] at hlow hhigh
  have hbelow : 4 * (units * den) < 4 * num + gapBelow units * den := by
    unfold gapBelow
    split
    · next hpower =>
      have hunit : units * den = 2 ^ 52 * (gap units * den) := by
        rw [← Nat.mul_assoc, ← hpower.1]
      omega
    · rw [Nat.mul_assoc]
      omega
  have habove : 4 * num < 4 * (units * den) + 2 * (gap units * den) := by omega
  exact ⟨hbelow.le, habove.le, fun _ => ⟨hbelow, habove⟩⟩

/-- A decimal that is close to a number is a close quotient. -/
theorem close_decimalQuotient {digits : Nat} {exponent : Int}
    (hclose : |(digits : ℚ) * 10 ^ exponent - Digits.exactValue units| * 2 ^ 54 <
      Digits.exactValue units) :
    Close units (decimalQuotient digits exponent).1 (decimalQuotient digits exponent).2 := by
  have hden := decimalQuotient_pos digits exponent
  have hcast := decimalQuotient_cast digits exponent
  have hexact : (units : ℚ) = Digits.exactValue units * 2 ^ 1074 := by
    unfold Digits.exactValue
    generalize 1074 = width
    field_simp
  generalize decimalQuotient digits exponent = quotient at *
  generalize Digits.exactValue units = x at *
  generalize (digits : ℚ) * 10 ^ exponent = y at *
  generalize 1074 = width at *
  have hden' : (0 : ℚ) < quotient.2 := by exact_mod_cast hden
  have hscale : (0 : ℚ) < 2 ^ width * quotient.2 := by positivity
  have hcount : (units : ℚ) * quotient.2 = x * (2 ^ width * quotient.2) := by
    rw [hexact, mul_assoc]
  have hnum : (quotient.1 : ℚ) = y * (2 ^ width * quotient.2) := by
    rw [hcast, mul_assoc]
  have hdistance : |y - x| < x / 2 ^ 54 := by rwa [lt_div_iff₀ (by norm_num)]
  obtain ⟨hbelow, habove⟩ := abs_lt.mp hdistance
  have hlow := mul_lt_mul_of_pos_right hbelow hscale
  have hhigh := mul_lt_mul_of_pos_right habove hscale
  generalize (2 : ℚ) ^ width * quotient.2 = scale at *
  constructor
  · have hlt : (units * quotient.2 * 2 ^ 54 : ℚ) < quotient.1 * 2 ^ 54 + units * quotient.2 := by
      rw [hcount, hnum]
      linarith
    exact_mod_cast hlt
  · have hlt : (quotient.1 * 2 ^ 54 : ℚ) < units * quotient.2 * 2 ^ 54 + units * quotient.2 := by
      rw [hcount, hnum]
      linarith
    exact_mod_cast hlt

/-- A decimal that is close to a number denotes it. -/
theorem rank_ofDecimal_of_close {digits : Nat} {exponent : Int} (h : Representable units)
    (hclose : |(digits : ℚ) * 10 ^ exponent - Digits.exactValue units| * 2 ^ 54 <
      Digits.exactValue units) :
    (ofDecimal false digits exponent).rank = units := by
  have hden := decimalQuotient_pos digits exponent
  have hunits := ((close_decimalQuotient hclose).roundsTo h).roundedUnits_eq h hden
  rw [ofDecimal_eq_ofQuotient, rank_ofQuotient, hunits, Nat.min_eq_left (Nat.le_of_lt h.1)]

end

/-- Sixteen decimals are as close to a number as is enough. -/
theorem abs_value_rounded_sub_lt {units decimals : Nat} (hne : units ≠ 0)
    (hdecimals : 16 ≤ decimals) :
    |(Digits.rounded units decimals).value - Digits.exactValue units| * 2 ^ 54 <
      Digits.exactValue units := by
  have hdistance := Digits.abs_value_rounded_sub_le hne decimals
  have hleading := (Digits.leading_spec hne).1
  have hpos : (0 : ℚ) < 10 ^ Digits.leading units := by positivity
  have hplace : (10 : ℚ) ^ (Digits.leading units - decimals) ≤
      10 ^ Digits.leading units * 10 ^ (-16 : Int) := by
    rw [← zpow_add₀ (by norm_num)]
    refine zpow_le_zpow_right₀ (by norm_num) ?_
    omega
  have hsixteen : (10 : ℚ) ^ (-16 : Int) * 2 ^ 53 < 1 := by norm_num
  generalize (10 : ℚ) ^ (-16 : Int) = sixteenth at *
  generalize (10 : ℚ) ^ Digits.leading units = first at *
  calc |(Digits.rounded units decimals).value - Digits.exactValue units| * 2 ^ 54
    _ ≤ 1 / 2 * (first * sixteenth) * 2 ^ 54 := by linarith
    _ = first * (sixteenth * 2 ^ 53) := by ring
    _ < first := mul_lt_of_lt_one_right hpos hsixteen
    _ ≤ Digits.exactValue units := hleading

/-- With sixteen decimals or more, a number other than zero is read back from its text. -/
theorem reread_eq_self {x : Number} (hx : x.rank ≠ 0) {decimals : Nat}
    (hdecimals : 16 ≤ decimals) : x.reread decimals = x := by
  cases x with
  | nan negative => rfl
  | infinite negative => rfl
  | finite negative units h =>
    have hne : units ≠ 0 := by
      rintro rfl
      exact hx (by cases negative <;> rfl)
    have hreread : rereadRank decimals units = units :=
      rank_ofDecimal_of_close h (abs_value_rounded_sub_lt hne hdecimals)
    have hrank : ((finite negative units h).reread decimals).rank =
        (finite negative units h).rank := by
      rw [rank_reread_finite, hreread]
      rfl
    refine eq_of_rank_eq (isNaN_reread _ _) rfl hrank ?_
    rwa [hrank]

end Number

end CircuitCode
