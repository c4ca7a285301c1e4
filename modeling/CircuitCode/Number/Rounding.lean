import CircuitCode.Number.Basic

/-!
# Rounding to the nearest number

`Number.ofQuotient` gives the binary64 number nearest a quotient of two natural numbers, counted
in units of `2^-1074`; of two nearest numbers it takes the one with the even significand, and a
quotient that rounds past the largest finite number becomes infinite. `Number.ofDecimal` does the
same for a decimal number.
-/

namespace CircuitCode

-- Powers are those of the core library, whatever is imported besides.
attribute [local instance (2000)] instPowNat

/-- The whole number nearest a quotient, a half going to the even neighbour. -/
def roundHalfEven (num den : Nat) : Nat :=
  let quotient := num / den
  let remainder := num % den
  if 2 * remainder < den then quotient
  else if den < 2 * remainder then quotient + 1
  else quotient + quotient % 2

theorem roundHalfEven_le (num den : Nat) : roundHalfEven num den ≤ num / den + 1 := by
  unfold roundHalfEven
  dsimp only
  split
  · omega
  · split <;> omega

/-- The significand of a quotient whose last kept place is `2^shift` has at most 53 bits, or is
    the power of two just above them. -/
theorem roundHalfEven_shift_le (num den : Nat) :
    roundHalfEven num (den * 2 ^ ((num / den).log2 - 52)) ≤ 2 ^ (53 : Nat) := by
  refine Nat.le_trans (roundHalfEven_le _ _) ?_
  rw [← Nat.div_div_eq_div_mul]
  have hq : num / den < 2 ^ ((num / den).log2 - 52) * 2 ^ 53 := by
    rw [← Nat.pow_add]
    exact Nat.lt_of_lt_of_le Nat.lt_log2_self (Nat.pow_le_pow_right (by decide) (by omega))
  have := Nat.div_lt_of_lt_mul hq
  omega

namespace Number

/-- The number nearest `num / den` units. -/
def ofQuotient (negative : Bool) (num den : Nat) : Number :=
  let shift := (num / den).log2 - 52
  let significand := roundHalfEven num (den * 2 ^ shift)
  if h : significand * 2 ^ shift < outOfRange then
    .finite negative (significand * 2 ^ shift)
      (representable_shift (roundHalfEven_shift_le num den) h)
  else
    .infinite negative

/-- The number nearest `digits * 10^exponent`. The first two tests answer for values that are far
    out of range, so that no power of ten beyond the format's range is computed. -/
def ofDecimal (negative : Bool) (digits : Nat) (exponent : Int) : Number :=
  let order := exponent + (Nat.toDigits 10 digits).length
  if digits = 0 ∨ order < -330 then .finite negative 0 representable_zero
  else if 330 < order then .infinite negative
  else
    match exponent with
    | .ofNat power => ofQuotient negative (digits * 10 ^ power * 2 ^ (1074 : Nat)) 1
    | .negSucc power => ofQuotient negative (digits * 2 ^ (1074 : Nat)) (10 ^ (power + 1))

/-- Decimal literals denote the nearest number. -/
instance : OfScientific Number :=
  ⟨fun digits negated places =>
    ofDecimal false digits (if negated then -(places : Int) else places)⟩

instance (n : Nat) : OfNat Number n := ⟨ofDecimal false n 0⟩

theorem ofNat_zero : (0 : Number) = zero := by
  change ofDecimal false 0 0 = zero
  simp [ofDecimal, zero]

@[simp] theorem rank_zero : (0 : Number).rank = 0 := by
  rw [ofNat_zero]
  rfl

end Number

end CircuitCode
