import Mathlib.Data.Rat.Cast.Order
import Mathlib.Tactic.FieldSimp
import Mathlib.Tactic.Positivity
import Mathlib.Tactic.Ring
import CircuitCode.Number.Rounding

/-!
# Rounding keeps the order

A quotient that is not greater than another rounds to a number that is not greater. The same holds
of decimals (`Number.rank_ofDecimal_le`): the tests for values far out of range do not show
(`Number.ofDecimal_eq_ofQuotient`).
-/

namespace CircuitCode

theorem lt_pow_length_toDigits (n : Nat) : n < 10 ^ (Nat.toDigits 10 n).length :=
  (Nat.length_toDigits_le_iff (by decide) Nat.length_toDigits_pos).mp (Nat.le_refl _)

theorem pow_length_toDigits_le {n : Nat} (h : n ≠ 0) :
    10 ^ ((Nat.toDigits 10 n).length - 1) ≤ n := by
  rcases Nat.eq_zero_or_pos ((Nat.toDigits 10 n).length - 1) with hzero | hpos
  · rw [hzero]
    exact Nat.pos_of_ne_zero h
  · apply Nat.le_of_not_lt
    rw [← Nat.length_toDigits_le_iff (by decide) hpos]
    omega

/-- Where a quotient rounds past a whole number: above the half, or on it if the number is odd. -/
theorem lt_roundHalfEven_iff {num den m : Nat} (hden : 0 < den) :
    m < roundHalfEven num den ↔
      (2 * m + 1) * den < 2 * num ∨ (2 * m + 1) * den = 2 * num ∧ m % 2 = 1 := by
  have hnum : num = num / den * den + num % den := (Nat.div_add_mod' num den).symm
  have hmod : num % den < den := Nat.mod_lt num hden
  have hscale : (2 * m + 1) * den = 2 * (m * den) + den := by ring
  unfold roundHalfEven
  dsimp only
  rw [hscale]
  rcases Nat.lt_trichotomy m (num / den) with hlt | heq | hgt
  · have hle : (m + 1) * den ≤ num / den * den := Nat.mul_le_mul_right den hlt
    rw [Nat.add_mul, Nat.one_mul] at hle
    split
    · omega
    · split <;> omega
  · rw [← heq] at hnum ⊢
    split
    · omega
    · split <;> omega
  · have hle : (num / den + 1) * den ≤ m * den := Nat.mul_le_mul_right den hgt
    rw [Nat.add_mul, Nat.one_mul] at hle
    split
    · omega
    · split <;> omega

theorem roundHalfEven_mono {num den num' den' : Nat} (hden : 0 < den) (hden' : 0 < den')
    (h : num * den' ≤ num' * den) : roundHalfEven num den ≤ roundHalfEven num' den' := by
  refine le_of_forall_lt fun m hm => ?_
  rw [lt_roundHalfEven_iff hden] at hm
  rw [lt_roundHalfEven_iff hden']
  have hle : 2 * num * den' ≤ 2 * num' * den := by
    rw [Nat.mul_assoc, Nat.mul_assoc]
    exact Nat.mul_le_mul_left 2 h
  have hswap : (2 * m + 1) * den * den' = (2 * m + 1) * den' * den := Nat.mul_right_comm _ _ _
  rcases hm with hlt | ⟨heq, hodd⟩
  · left
    apply Nat.lt_of_mul_lt_mul_right (a := den)
    rw [← hswap]
    exact Nat.lt_of_lt_of_le (Nat.mul_lt_mul_of_pos_right hlt hden') hle
  · have hle' : (2 * m + 1) * den' ≤ 2 * num' := by
      apply Nat.le_of_mul_le_mul_right _ hden
      rw [← hswap, heq]
      exact hle
    rcases Nat.lt_or_eq_of_le hle' with hlt | heq'
    · exact Or.inl hlt
    · exact Or.inr ⟨heq', hodd⟩

theorem div_le_roundHalfEven (num den : Nat) : num / den ≤ roundHalfEven num den := by
  unfold roundHalfEven
  dsimp only
  split
  · omega
  · split <;> omega

/-- Rounding moves a quotient by at most a half. -/
theorem roundHalfEven_mul_bounds (num : Nat) {den : Nat} (hden : 0 < den) :
    2 * (roundHalfEven num den * den) ≤ 2 * num + den ∧
      2 * num ≤ 2 * (roundHalfEven num den * den) + den := by
  have hnum : num = num / den * den + num % den := (Nat.div_add_mod' num den).symm
  have hmod : num % den < den := Nat.mod_lt num hden
  unfold roundHalfEven
  dsimp only
  split
  · omega
  · split
    · rw [Nat.add_mul]
      omega
    · rcases Nat.mod_two_eq_zero_or_one (num / den) with hparity | hparity <;>
        rw [hparity, Nat.add_mul] <;> omega

theorem div_le_div_of_mul_le {num den num' den' : Nat} (hden : 0 < den) (hden' : 0 < den')
    (h : num * den' ≤ num' * den) : num / den ≤ num' / den' := by
  rw [Nat.le_div_iff_mul_le hden']
  apply Nat.le_of_mul_le_mul_right _ hden
  calc num / den * den' * den = num / den * den * den' := Nat.mul_right_comm _ _ _
    _ ≤ num * den' := Nat.mul_le_mul_right den' (Nat.div_mul_le_self num den)
    _ ≤ num' * den := h

namespace Number

/-- The whole number of units that a quotient rounds to, whether it is in range or not. -/
def roundedUnits (num den : Nat) : Nat :=
  let shift := (num / den).log2 - 52
  roundHalfEven num (den * 2 ^ shift) * 2 ^ shift

theorem roundedUnits_mono {num den num' den' : Nat} (hden : 0 < den) (hden' : 0 < den')
    (h : num * den' ≤ num' * den) : roundedUnits num den ≤ roundedUnits num' den' := by
  have hdiv := div_le_div_of_mul_le hden hden' h
  have hlog : (num / den).log2 ≤ (num' / den').log2 := by
    by_cases hzero : num / den = 0
    · simp [hzero]
    · have hne : num' / den' ≠ 0 :=
        Nat.ne_of_gt (Nat.lt_of_lt_of_le (Nat.pos_of_ne_zero hzero) hdiv)
      exact (Nat.le_log2 hne).mpr (Nat.le_trans (Nat.log2_self_le hzero) hdiv)
  unfold roundedUnits
  dsimp only
  have hbound := roundHalfEven_shift_le num den
  generalize hs : (num / den).log2 - 52 = shift at hbound ⊢
  generalize hs' : (num' / den').log2 - 52 = shift'
  rcases Nat.eq_or_lt_of_le (show shift ≤ shift' by omega) with rfl | hlt
  · refine Nat.mul_le_mul_right _ (roundHalfEven_mono
      (Nat.mul_pos hden (Nat.two_pow_pos _)) (Nat.mul_pos hden' (Nat.two_pow_pos _)) ?_)
    rw [← Nat.mul_assoc, ← Nat.mul_assoc]
    exact Nat.mul_le_mul_right _ h
  -- The greater quotient has a higher last place, so even its first bit is enough.
  · have hq' : 2 ^ (52 + shift') ≤ num' / den' := by
      have hlog' : (num' / den').log2 = 52 + shift' := by omega
      have hne : num' / den' ≠ 0 := by
        intro hzero
        rw [hzero, Nat.log2_zero] at hlog'
        omega
      rw [← hlog']
      exact Nat.log2_self_le hne
    have hfirst : 2 ^ 52 ≤ roundHalfEven num' (den' * 2 ^ shift') := by
      refine Nat.le_trans ?_ (div_le_roundHalfEven _ _)
      rw [← Nat.div_div_eq_div_mul, Nat.le_div_iff_mul_le (Nat.two_pow_pos _), ← Nat.pow_add]
      exact hq'
    calc roundHalfEven num (den * 2 ^ shift) * 2 ^ shift
      _ ≤ 2 ^ 53 * 2 ^ shift := Nat.mul_le_mul_right _ hbound
      _ = 2 ^ 52 * 2 ^ (shift + 1) := by rw [← Nat.pow_add, ← Nat.pow_add]; congr 1; omega
      _ ≤ 2 ^ 52 * 2 ^ shift' := Nat.mul_le_mul_left _ (Nat.pow_le_pow_right (by decide) hlt)
      _ ≤ roundHalfEven num' (den' * 2 ^ shift') * 2 ^ shift' := Nat.mul_le_mul_right _ hfirst

@[simp] theorem rank_neg (x : Number) : (-x).rank = -x.rank := by
  change x.neg.rank = -x.rank
  cases x with
  | nan negative => rfl
  | infinite negative =>
    cases negative with
    | true => exact (Int.neg_neg _).symm
    | false => rfl
  | finite negative units h => cases negative <;> simp [neg, rank]

theorem ofQuotient_true (num den : Nat) : ofQuotient true num den = -ofQuotient false num den := by
  unfold ofQuotient
  dsimp only
  split <;> rfl

/-- A quotient that rounds out of range stands beyond every finite number. -/
theorem rank_ofQuotient (num den : Nat) :
    (ofQuotient false num den).rank = min (roundedUnits num den) outOfRange := by
  unfold ofQuotient roundedUnits
  dsimp only
  split
  · next h => rw [Nat.min_eq_left (Nat.le_of_lt h)]; rfl
  · next h => rw [Nat.min_eq_right (Nat.le_of_not_lt h)]; rfl

/-- A decimal as a quotient that counts units. -/
def decimalQuotient (digits : Nat) : Int → Nat × Nat
  | .ofNat power => (digits * 10 ^ power * 2 ^ 1074, 1)
  | .negSucc power => (digits * 2 ^ 1074, 10 ^ (power + 1))

theorem decimalQuotient_pos (digits : Nat) (exponent : Int) :
    0 < (decimalQuotient digits exponent).2 := by
  cases exponent with
  | ofNat power => exact Nat.one_pos
  | negSucc power => exact Nat.pow_pos (by decide)

theorem ofQuotient_eq_zero {negative : Bool} {num den : Nat} (h : roundedUnits num den = 0) :
    ofQuotient negative num den = .finite negative 0 representable_zero := by
  unfold ofQuotient
  unfold roundedUnits at h
  dsimp only at h ⊢
  simp only [h, outOfRange_pos, ↓reduceDIte]

theorem ofQuotient_eq_infinite {negative : Bool} {num den : Nat}
    (h : outOfRange ≤ roundedUnits num den) : ofQuotient negative num den = .infinite negative := by
  unfold ofQuotient
  exact dif_neg (Nat.not_lt.mpr h)

/-- What is less than a third of a unit rounds to nothing. -/
theorem roundedUnits_eq_zero {num den : Nat} (hden : 0 < den) (h : num * 3 ≤ den) :
    roundedUnits num den = 0 := by
  have hthird : roundedUnits 1 3 = 0 := by decide
  have hle : roundedUnits num den ≤ roundedUnits 1 3 :=
    roundedUnits_mono hden (by decide) (by omega)
  omega

/-- The first count of units that is out of range rounds to itself. -/
theorem outOfRange_le_roundedUnits {num den : Nat} (hden : 0 < den)
    (h : outOfRange * den ≤ num) : outOfRange ≤ roundedUnits num den := by
  have hself : roundedUnits outOfRange 1 = outOfRange := by decide +kernel
  rw [← hself]
  exact roundedUnits_mono (by decide) hden (by omega)

theorem decimalQuotient_small {digits : Nat} {exponent : Int}
    (h : digits = 0 ∨ exponent + (Nat.toDigits 10 digits).length < -330) :
    (decimalQuotient digits exponent).1 * 3 ≤ (decimalQuotient digits exponent).2 := by
  rcases h with rfl | h
  · cases exponent <;> simp [decimalQuotient]
  · have hdigits := lt_pow_length_toDigits digits
    generalize (Nat.toDigits 10 digits).length = length at h hdigits
    cases exponent with
    | ofNat power =>
      rw [Int.ofNat_eq_natCast] at h
      omega
    | negSucc power =>
      have hunit : 2 ^ 1074 * 3 ≤ 10 ^ 330 := by decide +kernel
      unfold decimalQuotient
      calc digits * 2 ^ 1074 * 3
        _ = digits * (2 ^ 1074 * 3) := Nat.mul_assoc _ _ _
        _ ≤ 10 ^ length * 10 ^ 330 := Nat.mul_le_mul (Nat.le_of_lt hdigits) hunit
        _ = 10 ^ (length + 330) := (Nat.pow_add _ _ _).symm
        _ ≤ 10 ^ (power + 1) := Nat.pow_le_pow_right (by decide) (by omega)

theorem decimalQuotient_large {digits : Nat} {exponent : Int} (hne : digits ≠ 0)
    (h : 330 < exponent + (Nat.toDigits 10 digits).length) :
    outOfRange * (decimalQuotient digits exponent).2 ≤ (decimalQuotient digits exponent).1 := by
  have hdigits := pow_length_toDigits_le hne
  have hunit : outOfRange ≤ 10 ^ 330 * 2 ^ 1074 := by decide +kernel
  have hpow {k : Nat} (hk : 330 ≤ k) : 10 ^ 330 ≤ 10 ^ k := Nat.pow_le_pow_right (by decide) hk
  generalize (Nat.toDigits 10 digits).length = length at h hdigits
  generalize 10 ^ 330 = bound at hunit hpow
  cases exponent with
  | ofNat power =>
    rw [Int.ofNat_eq_natCast] at h
    unfold decimalQuotient
    generalize 2 ^ 1074 = unit at hunit ⊢
    calc outOfRange * 1
      _ ≤ bound * unit := by rw [Nat.mul_one]; exact hunit
      _ ≤ 10 ^ (length - 1 + power) * unit := Nat.mul_le_mul_right _ (hpow (by omega))
      _ = 10 ^ (length - 1) * 10 ^ power * unit := by rw [Nat.pow_add]
      _ ≤ digits * 10 ^ power * unit :=
        Nat.mul_le_mul_right _ (Nat.mul_le_mul_right _ hdigits)
  | negSucc power =>
    obtain ⟨k, hk⟩ : ∃ k, length - 1 = k + (power + 1) := ⟨length - 1 - (power + 1), by omega⟩
    rw [hk, Nat.pow_add] at hdigits
    unfold decimalQuotient
    generalize 2 ^ 1074 = unit at hunit ⊢
    calc outOfRange * 10 ^ (power + 1)
      _ ≤ bound * unit * 10 ^ (power + 1) := Nat.mul_le_mul_right _ hunit
      _ = bound * 10 ^ (power + 1) * unit := Nat.mul_right_comm _ _ _
      _ ≤ 10 ^ k * 10 ^ (power + 1) * unit :=
        Nat.mul_le_mul_right _ (Nat.mul_le_mul_right _ (hpow (by omega)))
      _ ≤ digits * unit := Nat.mul_le_mul_right _ hdigits

/-- The tests for values far out of range decide nothing that rounding would decide otherwise. -/
theorem ofDecimal_eq_ofQuotient (negative : Bool) (digits : Nat) (exponent : Int) :
    ofDecimal negative digits exponent =
      ofQuotient negative (decimalQuotient digits exponent).1
        (decimalQuotient digits exponent).2 := by
  have hpos := decimalQuotient_pos digits exponent
  unfold ofDecimal
  dsimp only
  split
  · next hsmall =>
    rw [ofQuotient_eq_zero (roundedUnits_eq_zero hpos (decimalQuotient_small hsmall))]
  · next hsmall =>
    split
    · next hlarge =>
      have hne : digits ≠ 0 := fun hzero => hsmall (Or.inl hzero)
      rw [ofQuotient_eq_infinite (outOfRange_le_roundedUnits hpos
        (decimalQuotient_large hne hlarge))]
    · cases exponent <;> rfl

theorem decimalQuotient_cast (digits : Nat) (exponent : Int) :
    ((decimalQuotient digits exponent).1 : ℚ) =
      digits * 10 ^ exponent * 2 ^ 1074 * (decimalQuotient digits exponent).2 := by
  unfold decimalQuotient
  generalize 1074 = width
  cases exponent with
  | ofNat power =>
    rw [Int.ofNat_eq_natCast, zpow_natCast]
    push_cast
    ring
  | negSucc power =>
    rw [zpow_negSucc]
    push_cast
    field_simp

/-- A decimal that is not greater than another denotes a number that is not greater. -/
theorem rank_ofDecimal_le {digits digits' : Nat} {exponent exponent' : Int}
    (h : (digits : ℚ) * 10 ^ exponent ≤ digits' * 10 ^ exponent') :
    (ofDecimal false digits exponent).rank ≤ (ofDecimal false digits' exponent').rank := by
  have hpos := decimalQuotient_pos digits exponent
  have hpos' := decimalQuotient_pos digits' exponent'
  have hcast := decimalQuotient_cast digits exponent
  have hcast' := decimalQuotient_cast digits' exponent'
  rw [ofDecimal_eq_ofQuotient, ofDecimal_eq_ofQuotient, rank_ofQuotient, rank_ofQuotient]
  have hcross : (decimalQuotient digits exponent).1 * (decimalQuotient digits' exponent').2 ≤
      (decimalQuotient digits' exponent').1 * (decimalQuotient digits exponent).2 := by
    generalize decimalQuotient digits exponent = quotient at *
    generalize decimalQuotient digits' exponent' = quotient' at *
    generalize 1074 = width at *
    have hle : (quotient.1 : ℚ) * quotient'.2 ≤ quotient'.1 * quotient.2 := by
      calc (quotient.1 : ℚ) * quotient'.2
        _ = digits * 10 ^ exponent * (2 ^ width * quotient.2 * quotient'.2) := by
          rw [hcast]
          ring
        _ ≤ digits' * 10 ^ exponent' * (2 ^ width * quotient.2 * quotient'.2) :=
          mul_le_mul_of_nonneg_right h (by positivity)
        _ = quotient'.1 * quotient.2 := by
          rw [hcast']
          ring
    exact_mod_cast hle
  have hunits := roundedUnits_mono hpos hpos' hcross
  omega

end Number

end CircuitCode
