import Mathlib.Algebra.Order.Field.Power
import Mathlib.Tactic.Linarith
import CircuitCode.Number.Digits
import CircuitCode.Proofs.Number.Rounding

/-!
# The value of rounded digits

`Digits.value` is the number that digits write. Digits of a fixed count grow with the number they
are for (`Digits.value_rounded_mono`) and are at most half a step of their last place away from it
(`Digits.abs_value_rounded_sub_le`).
-/

namespace CircuitCode

theorem roundHalfEven_one (num : Nat) : roundHalfEven num 1 = num := by
  simp [roundHalfEven, Nat.mod_one]

theorem le_roundHalfEven {num den m : Nat} (hden : 0 < den) (h : m * den ≤ num) :
    m ≤ roundHalfEven num den := by
  have hcross : m * den ≤ num * 1 := by rwa [Nat.mul_one]
  have hmono := roundHalfEven_mono Nat.one_pos hden hcross
  rwa [roundHalfEven_one] at hmono

theorem roundHalfEven_le_of_le {num den m : Nat} (hden : 0 < den) (h : num ≤ m * den) :
    roundHalfEven num den ≤ m := by
  have hcross : num * 1 ≤ m * den := by rwa [Nat.mul_one]
  have hmono := roundHalfEven_mono hden Nat.one_pos hcross
  rwa [roundHalfEven_one] at hmono

/-- Rounding moves a quotient by at most a half. -/
theorem abs_roundHalfEven_sub_le (num : Nat) {den : Nat} (hden : 0 < den) :
    |(roundHalfEven num den : ℚ) - num / den| ≤ 1 / 2 := by
  have hden' : (0 : ℚ) < den := by exact_mod_cast hden
  obtain ⟨hlow, hhigh⟩ := roundHalfEven_mul_bounds num hden
  have hlow' : (2 * (roundHalfEven num den * den) : ℚ) ≤ 2 * num + den := by exact_mod_cast hlow
  have hhigh' : (2 * num : ℚ) ≤ 2 * (roundHalfEven num den * den) + den := by exact_mod_cast hhigh
  have hquotient : (num : ℚ) = num / den * den := (div_mul_cancel₀ _ hden'.ne').symm
  rw [hquotient] at hlow' hhigh'
  rw [abs_le]
  constructor
  · refine le_of_mul_le_mul_right ?_ hden'
    linarith
  · refine le_of_mul_le_mul_right ?_ hden'
    linarith

namespace Digits

/-- The number that digits write. -/
def value (d : Digits) : ℚ :=
  Nat.ofDigitChars 10 d.digits 0 * 10 ^ (d.exponent - (d.digits.length - 1))

theorem value_nonneg (d : Digits) : 0 ≤ d.value := by
  unfold value
  positivity

theorem value_ofNat (digits : Nat) (place : Int) :
    (ofNat digits place).value = digits * 10 ^ place := by
  unfold value ofNat
  dsimp only
  rw [Nat.ofDigitChars_ten_toDigits]
  congr 2
  omega

/-- The leading place of a quotient is that of its first digit. -/
theorem leadingPlace_spec {num den : Nat} (hnum : 0 < num) (hden : 0 < den) :
    (10 : ℚ) ^ leadingPlace num den ≤ num / den ∧
      (num : ℚ) / den < 10 ^ (leadingPlace num den + 1) := by
  have hnum' : (0 : ℚ) < num := by exact_mod_cast hnum
  have hden' : (0 : ℚ) < den := by exact_mod_cast hden
  unfold leadingPlace
  split
  · next hle =>
    have hne : num / den ≠ 0 := Nat.ne_of_gt (Nat.div_pos hle hden)
    have hlength : 0 < (Nat.toDigits 10 (num / den)).length := Nat.length_toDigits_pos
    have hlow := pow_length_toDigits_le hne
    have hhigh := lt_pow_length_toDigits (num / den)
    generalize (Nat.toDigits 10 (num / den)).length = length at *
    obtain ⟨k, rfl⟩ := Nat.exists_eq_add_of_lt hlength
    simp only [Nat.zero_add, Nat.add_sub_cancel] at hlow hhigh ⊢
    rw [Nat.cast_add, Nat.cast_one, Int.add_sub_cancel, ← Nat.cast_add_one, zpow_natCast,
      zpow_natCast, le_div_iff₀ hden', div_lt_iff₀ hden']
    constructor
    · rw [Nat.le_div_iff_mul_le hden] at hlow
      exact_mod_cast hlow
    · rw [Nat.div_lt_iff_lt_mul hden] at hhigh
      exact_mod_cast hhigh
  · next hlt =>
    have hne : (den - 1) / num ≠ 0 := Nat.ne_of_gt (Nat.div_pos (by omega) hnum)
    have hlength : 0 < (Nat.toDigits 10 ((den - 1) / num)).length := Nat.length_toDigits_pos
    have hlow := pow_length_toDigits_le hne
    have hhigh := lt_pow_length_toDigits ((den - 1) / num)
    generalize (Nat.toDigits 10 ((den - 1) / num)).length = length at *
    obtain ⟨k, rfl⟩ := Nat.exists_eq_add_of_lt hlength
    simp only [Nat.zero_add, Nat.add_sub_cancel] at hlow hhigh ⊢
    have hplace : -((k + 1 : Nat) : Int) + 1 = -(k : Int) := by omega
    rw [hplace, zpow_neg, zpow_neg, zpow_natCast, zpow_natCast]
    constructor
    · rw [Nat.div_lt_iff_lt_mul hnum] at hhigh
      have hle : den ≤ 10 ^ (k + 1) * num := by omega
      rw [inv_le_iff_one_le_mul₀ (by positivity), div_mul_eq_mul_div, le_div_iff₀ hden', one_mul,
        mul_comm]
      exact_mod_cast hle
    · rw [Nat.le_div_iff_mul_le hnum] at hlow
      have hlt' : 10 ^ k * num < den := by omega
      rw [lt_inv_comm₀ (by positivity) (by positivity), inv_div, lt_div_iff₀ hnum']
      exact_mod_cast hlt'

theorem scaled_pos (units : Nat) (place : Int) : 0 < (scaled units place).2 := by
  unfold scaled
  cases place with
  | ofNat power => exact Nat.mul_pos (Nat.two_pow_pos _) (Nat.pow_pos (by decide))
  | negSucc power => exact Nat.two_pow_pos _

/-- The value of a count of units. -/
def exactValue (units : Nat) : ℚ := units / 2 ^ 1074

theorem exactValue_mono {units units' : Nat} (h : units ≤ units') :
    exactValue units ≤ exactValue units' := by
  unfold exactValue
  have hcast : (units : ℚ) ≤ units' := by exact_mod_cast h
  exact div_le_div_of_nonneg_right hcast (by positivity)

theorem scaled_cast (units : Nat) (place : Int) :
    ((scaled units place).1 : ℚ) / (scaled units place).2 = exactValue units / 10 ^ place := by
  unfold scaled exactValue
  generalize 1074 = width
  cases place with
  | ofNat power =>
    rw [Int.ofNat_eq_natCast, zpow_natCast]
    push_cast
    rw [div_div]
  | negSucc power =>
    rw [zpow_negSucc]
    push_cast
    rw [div_inv_eq_mul, div_mul_eq_mul_div]

/-- The power of ten of the leading digit of a number. -/
@[irreducible]
def leading (units : Nat) : Int := leadingPlace units (2 ^ 1074)

theorem leading_spec {units : Nat} (h : units ≠ 0) :
    (10 : ℚ) ^ leading units ≤ exactValue units ∧
      exactValue units < 10 ^ (leading units + 1) := by
  have hspec := leadingPlace_spec (Nat.pos_of_ne_zero h) (Nat.two_pow_pos 1074)
  rw [Nat.cast_pow, Nat.cast_ofNat] at hspec
  unfold leading
  exact hspec

theorem leading_mono {units units' : Nat} (h : units ≠ 0) (hle : units ≤ units') :
    leading units ≤ leading units' := by
  have hlow := (leading_spec h).1
  have hne : units' ≠ 0 := by omega
  have hhigh := (leading_spec hne).2
  have hlt := lt_of_le_of_lt (hlow.trans (exactValue_mono hle)) hhigh
  rw [zpow_lt_zpow_iff_right₀ (by norm_num)] at hlt
  omega

/-- The multiple of `10^place` nearest a number. -/
def onPlace (units : Nat) (place : Int) : Nat :=
  roundHalfEven (scaled units place).1 (scaled units place).2

theorem onPlace_mono {units units' : Nat} (place : Int) (h : units ≤ units') :
    onPlace units place ≤ onPlace units' place := by
  refine roundHalfEven_mono (scaled_pos units place) (scaled_pos units' place) ?_
  cases place with
  | ofNat power => exact Nat.mul_le_mul_right _ h
  | negSucc power => exact Nat.mul_le_mul_right _ (Nat.mul_le_mul_right _ h)

/-- Rounding at `count` places after the leading one leaves that many digits and one, or the power
    of ten just above them. -/
theorem onPlace_bounds {units : Nat} (h : units ≠ 0) (count : Nat) :
    10 ^ count ≤ onPlace units (leading units - count) ∧
      onPlace units (leading units - count) ≤ 10 ^ (count + 1) := by
  have hden := scaled_pos units (leading units - count)
  have hden' : (0 : ℚ) < (scaled units (leading units - count)).2 := by exact_mod_cast hden
  have hcast := scaled_cast units (leading units - count)
  obtain ⟨hlow, hhigh⟩ := leading_spec h
  have hplace : (0 : ℚ) < 10 ^ (leading units - count) := by positivity
  constructor
  · apply le_roundHalfEven hden
    have hle : (10 : ℚ) ^ count ≤ exactValue units / 10 ^ (leading units - count) := by
      rw [le_div_iff₀ hplace, ← zpow_natCast, ← zpow_add₀ (by norm_num)]
      rwa [add_sub_cancel]
    rw [← hcast, le_div_iff₀ hden'] at hle
    exact_mod_cast hle
  · apply roundHalfEven_le_of_le hden
    have hle : exactValue units / 10 ^ (leading units - count) ≤ 10 ^ (count + 1) := by
      rw [div_le_iff₀ hplace, ← zpow_natCast, ← zpow_add₀ (by norm_num)]
      refine le_of_lt (hhigh.trans_eq ?_)
      congr 1
      push_cast
      ring
    rw [← hcast, div_le_iff₀ hden'] at hle
    exact_mod_cast hle

/-- Digits of a fixed count write the number rounded at the last of them. -/
theorem value_rounded {units : Nat} (h : units ≠ 0) (decimals : Nat) :
    (rounded units decimals).value =
      onPlace units (leading units - decimals) * 10 ^ (leading units - decimals) := by
  have hrounded : rounded units decimals =
      if onPlace units (leading units - decimals) = 10 ^ (decimals + 1) then
        ofNat (10 ^ decimals) (leading units - decimals + 1)
      else ofNat (onPlace units (leading units - decimals)) (leading units - decimals) := by
    unfold rounded onPlace leading
    rw [if_neg h]
  rw [hrounded]
  split
  · next hcarry =>
    rw [value_ofNat, hcarry, zpow_add_one₀ (by norm_num)]
    push_cast
    ring
  · exact value_ofNat _ _

theorem value_rounded_zero (decimals : Nat) : (rounded 0 decimals).value = 0 := by
  unfold rounded value
  rw [if_pos rfl, Nat.ofDigitChars_replicate_zero]
  simp

/-- Digits of a fixed count grow with the number. -/
theorem value_rounded_mono {units units' : Nat} (hle : units ≤ units') (decimals : Nat) :
    (rounded units decimals).value ≤ (rounded units' decimals).value := by
  rcases Nat.eq_zero_or_pos units with rfl | hpos
  · rw [value_rounded_zero]
    exact value_nonneg _
  have hne : units ≠ 0 := Nat.ne_of_gt hpos
  have hne' : units' ≠ 0 := by omega
  rw [value_rounded hne, value_rounded hne']
  have hplace := leading_mono hne hle
  have hhigh := (onPlace_bounds hne decimals).2
  have hlow := (onPlace_bounds hne' decimals).1
  rcases Int.lt_or_eq_of_le hplace with hlt | heq
  -- A power of ten lies between the two.
  · calc (onPlace units (leading units - decimals) : ℚ) * 10 ^ (leading units - decimals)
      _ ≤ 10 ^ (decimals + 1) * 10 ^ (leading units - decimals) := by
        refine mul_le_mul_of_nonneg_right ?_ (by positivity)
        exact_mod_cast hhigh
      _ = 10 ^ (leading units + 1) := by
        rw [← zpow_natCast, ← zpow_add₀ (by norm_num)]
        congr 1
        push_cast
        ring
      _ ≤ 10 ^ leading units' := zpow_le_zpow_right₀ (by norm_num) hlt
      _ = 10 ^ decimals * 10 ^ (leading units' - decimals) := by
        rw [← zpow_natCast, ← zpow_add₀ (by norm_num), add_sub_cancel]
      _ ≤ onPlace units' (leading units' - decimals) * 10 ^ (leading units' - decimals) := by
        refine mul_le_mul_of_nonneg_right ?_ (by positivity)
        exact_mod_cast hlow
  · rw [heq]
    refine mul_le_mul_of_nonneg_right ?_ (by positivity)
    exact_mod_cast onPlace_mono _ hle

/-- The digits are at most half a step of the last of them away from the number. -/
theorem abs_value_rounded_sub_le {units : Nat} (h : units ≠ 0) (decimals : Nat) :
    |(rounded units decimals).value - exactValue units| ≤
      1 / 2 * 10 ^ (leading units - decimals) := by
  have hplace : (0 : ℚ) < 10 ^ (leading units - decimals) := by positivity
  have hround := abs_roundHalfEven_sub_le (scaled units (leading units - decimals)).1
    (scaled_pos units (leading units - decimals))
  rw [scaled_cast, ← onPlace] at hround
  rw [value_rounded h]
  have hscale : (onPlace units (leading units - decimals) : ℚ) * 10 ^ (leading units - decimals) -
      exactValue units =
        (onPlace units (leading units - decimals) -
          exactValue units / 10 ^ (leading units - decimals)) *
            10 ^ (leading units - decimals) := by
    rw [sub_mul, div_mul_cancel₀ _ hplace.ne']
  rw [hscale, abs_mul, abs_of_pos hplace]
  exact mul_le_mul_of_nonneg_right hround hplace.le

end Digits

end CircuitCode
