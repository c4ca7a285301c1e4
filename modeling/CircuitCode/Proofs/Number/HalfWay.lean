import CircuitCode.Number.Digits
import CircuitCode.Proofs.Number.Rounding

/-!
# Half way to the neighbours

A quotient that is not farther from a representable count than half way to the counts next to it
rounds to that count, and half way it does if the significand is even
(`Number.RoundsTo.roundedUnits_eq`).
-/

namespace CircuitCode

/-- Where a quotient rounds to a whole number: at most a half away, and less if the number is
    odd. -/
theorem roundHalfEven_eq_of_le {num den m : Nat} (hden : 0 < den)
    (hlow : 2 * (m * den) ≤ 2 * num + den) (hhigh : 2 * num ≤ 2 * (m * den) + den)
    (hodd : m % 2 = 1 → 2 * (m * den) < 2 * num + den ∧ 2 * num < 2 * (m * den) + den) :
    roundHalfEven num den = m := by
  apply Nat.le_antisymm
  · apply Nat.le_of_not_lt
    rw [lt_roundHalfEven_iff hden, Nat.add_mul, Nat.one_mul, Nat.mul_assoc]
    omega
  · rcases Nat.eq_zero_or_pos m with rfl | hpos
    · exact Nat.zero_le _
    · obtain ⟨k, rfl⟩ := Nat.exists_eq_add_of_lt hpos
      apply Nat.succ_le_of_lt
      rw [Nat.zero_add, Nat.add_mul, Nat.one_mul] at hlow hodd
      rw [Nat.zero_add, lt_roundHalfEven_iff hden, Nat.add_mul, Nat.one_mul, Nat.mul_assoc]
      omega

namespace Digits

theorem gap_pos (units : Nat) : 0 < gap units := Nat.two_pow_pos _

/-- The distance from a number to the next one below it, twice. Below a power of two it is half as
    far as above. -/
def gapBelow (units : Nat) : Nat :=
  if units = 2 ^ 52 * gap units ∧ 1 < gap units then gap units else 2 * gap units

theorem gapBelow_le (units : Nat) : gapBelow units ≤ 2 * gap units := by
  unfold gapBelow
  split <;> omega

end Digits

open Digits

/-- A representable count is a significand in steps of its gap. The significand has all 53 bits
    unless the gap is the least one. -/
theorem Representable.exists_significand {units : Nat} (h : Representable units) :
    ∃ significand, units = significand * gap units ∧ significand < 2 ^ 53 ∧
      (1 < gap units → 2 ^ 52 ≤ significand) := by
  obtain ⟨-, significand, shift, hsignificand, hunits⟩ := h
  unfold gap
  have hlog : units ≠ 0 → 2 ^ units.log2 ≤ units := Nat.log2_self_le
  have hbits : units < 2 ^ (units.log2 + 1) := Nat.lt_log2_self
  generalize hplace : units.log2 - 52 = place
  have hfull (hpos : 0 < place) : 2 ^ 52 * 2 ^ place ≤ units := by
    rw [← Nat.pow_add]
    refine Nat.le_trans (Nat.pow_le_pow_right (by decide) (by omega)) (hlog ?_)
    rintro rfl
    rw [Nat.log2_zero] at hplace
    omega
  have hle : place ≤ shift := by
    by_contra hlt
    have hstep : 2 ^ (shift + 1) ≤ 2 ^ place := Nat.pow_le_pow_right (by decide) (by omega)
    have hshort : significand * 2 ^ shift < 2 ^ 53 * 2 ^ shift :=
      Nat.mul_lt_mul_of_pos_right hsignificand (Nat.two_pow_pos shift)
    have := hfull (by omega)
    rw [Nat.pow_succ] at hstep
    omega
  obtain ⟨above, rfl⟩ := Nat.exists_eq_add_of_le hle
  have hcount : units = significand * 2 ^ above * 2 ^ place := by
    rw [hunits, Nat.pow_add, Nat.mul_comm (2 ^ place), Nat.mul_assoc]
  refine ⟨significand * 2 ^ above, hcount, ?_, fun hgap => ?_⟩
  · apply Nat.lt_of_mul_lt_mul_right (a := 2 ^ place)
    rw [← hcount, ← Nat.pow_add]
    exact Nat.lt_of_lt_of_le hbits (Nat.pow_le_pow_right (by decide) (by omega))
  · apply Nat.le_of_mul_le_mul_right _ (Nat.two_pow_pos place)
    rw [← hcount]
    refine hfull (Nat.pos_of_ne_zero ?_)
    rintro rfl
    exact absurd hgap (by decide)

namespace Number

variable {units num den : Nat}

/-- A quotient is not farther from a count than half way to the counts next to it, and nearer if the
    significand is odd. -/
structure RoundsTo (units num den : Nat) : Prop where
  low : 4 * (units * den) ≤ 4 * num + gapBelow units * den
  high : 4 * num ≤ 4 * (units * den) + 2 * (gap units * den)
  odd : units / gap units % 2 = 1 →
    4 * (units * den) < 4 * num + gapBelow units * den ∧
      4 * num < 4 * (units * den) + 2 * (gap units * den)

namespace RoundsTo

variable (h : RoundsTo units num den) (hunits : Representable units) (hden : 0 < den)

include h hunits hden

/-- The last place that is kept of such a quotient is not above the gap of the count. -/
theorem kept_le : (num / den).log2 - 52 ≤ units.log2 - 52 := by
  obtain ⟨significand, hcount, hsignificand, -⟩ := hunits.exists_significand
  by_contra hlt
  have hne : num / den ≠ 0 := by
    intro hzero
    rw [hzero, Nat.log2_zero] at hlt
    omega
  have hfirst : 2 ^ 53 * gap units ≤ num / den := by
    unfold gap
    rw [← Nat.pow_add]
    exact Nat.le_trans (Nat.pow_le_pow_right (by decide) (by omega)) (Nat.log2_self_le hne)
  have hpos : 0 < gap units * den := Nat.mul_pos (gap_pos units) hden
  have hbits : significand * (gap units * den) ≤ (2 ^ 53 - 1) * (gap units * den) :=
    Nat.mul_le_mul_right _ (by omega)
  have hhigh := h.high
  rw [Nat.le_div_iff_mul_le hden, Nat.mul_assoc] at hfirst
  rw [← Nat.mul_assoc, ← hcount] at hbits
  omega

/-- It is below that gap only if the count is a power of two and the quotient is not as great. -/
theorem eq_two_pow_of_kept_lt (hlt : (num / den).log2 - 52 < units.log2 - 52) :
    units = 2 ^ 52 * gap units ∧ gapBelow units = gap units ∧ num < units * den := by
  obtain ⟨significand, hcount, -, hfull⟩ := hunits.exists_significand
  have hgap : 1 < gap units := Nat.one_lt_two_pow (by omega)
  have hfirst : num / den < 2 ^ 52 * gap units := by
    unfold gap
    rw [← Nat.pow_add]
    exact Nat.lt_of_lt_of_le Nat.lt_log2_self (Nat.pow_le_pow_right (by decide) (by omega))
  rw [Nat.div_lt_iff_lt_mul hden] at hfirst
  -- one step above the power of two the quotient would be too far away
  have hpower : significand = 2 ^ 52 := by
    refine Nat.le_antisymm (Nat.le_of_not_lt fun hlarge => ?_) (hfull hgap)
    have hbits : (2 ^ 52 + 1) * (gap units * den) ≤ significand * (gap units * den) :=
      Nat.mul_le_mul_right _ hlarge
    have hscaled : gapBelow units * den ≤ 2 * gap units * den :=
      Nat.mul_le_mul_right _ (gapBelow_le units)
    have hpos : 0 < gap units * den := Nat.mul_pos (gap_pos units) hden
    have hlow := h.low
    rw [← Nat.mul_assoc significand, ← hcount] at hbits
    rw [Nat.mul_assoc] at hscaled hfirst
    omega
  rw [hpower] at hcount
  exact ⟨hcount, if_pos ⟨hcount, hgap⟩, by rwa [← hcount] at hfirst⟩

/-- Then it is one place below the gap. -/
theorem gap_eq_of_kept_lt (hlt : (num / den).log2 - 52 < units.log2 - 52) :
    gap units = 2 * 2 ^ ((num / den).log2 - 52) := by
  obtain ⟨hcount, hbelow, -⟩ := h.eq_two_pow_of_kept_lt hunits hden hlt
  have hunit : units * den = 2 ^ 52 * (gap units * den) := by
    rw [← Nat.mul_assoc, ← hcount]
  have hlow := h.low
  rw [hbelow, hunit] at hlow
  have hpos : 0 < gap units * den := Nat.mul_pos (gap_pos units) hden
  have hsecond : 2 ^ 51 * gap units ≤ num / den := by
    rw [Nat.le_div_iff_mul_le hden, Nat.mul_assoc]
    omega
  unfold gap at hsecond ⊢
  rw [← Nat.pow_add] at hsecond
  have hne : num / den ≠ 0 := Nat.ne_of_gt (Nat.lt_of_lt_of_le (Nat.two_pow_pos _) hsecond)
  have hlog := (Nat.le_log2 hne).mpr hsecond
  rw [← Nat.pow_succ']
  congr 1
  omega

/-- Such a quotient rounds to the count. It may be just below a power of two, and then it rounds up
    to it. -/
theorem roundedUnits_eq : roundedUnits num den = units := by
  have hrounds (significand : Nat) {step : Nat} (hstep : 0 < step)
      (hcount : units = significand * step)
      (hlow : 2 * (units * den) ≤ 2 * num + step * den)
      (hhigh : 2 * num ≤ 2 * (units * den) + step * den)
      (hodd : significand % 2 = 1 → 2 * (units * den) < 2 * num + step * den ∧
        2 * num < 2 * (units * den) + step * den) :
      roundHalfEven num (den * step) * step = units := by
    have hproduct : significand * (step * den) = units * den := by
      rw [hcount, Nat.mul_assoc]
    rw [Nat.mul_comm den, roundHalfEven_eq_of_le (Nat.mul_pos hstep hden), hcount] <;>
      rwa [hproduct]
  unfold roundedUnits
  dsimp only
  rcases Nat.lt_or_eq_of_le (h.kept_le hunits hden) with hlt | heq
  · obtain ⟨hcount, hhalf, hbelow⟩ := h.eq_two_pow_of_kept_lt hunits hden hlt
    have hgap := h.gap_eq_of_kept_lt hunits hden hlt
    have hlow := h.low
    rw [hhalf, hgap, Nat.mul_assoc] at hlow
    refine hrounds (2 ^ 53) (Nat.two_pow_pos _) ?_ (by omega) (by omega) nofun
    rw [hcount, hgap, ← Nat.mul_assoc, ← Nat.pow_succ]
  · obtain ⟨significand, hcount, -, -⟩ := hunits.exists_significand
    have hparity : units / gap units = significand :=
      Nat.div_eq_of_eq_mul_left (gap_pos units) hcount
    have hscaled : gapBelow units * den ≤ 2 * gap units * den :=
      Nat.mul_le_mul_right _ (gapBelow_le units)
    obtain ⟨hlow, hhigh, hodd⟩ := h
    rw [hparity] at hodd
    rw [Nat.mul_assoc] at hscaled
    rw [heq, ← gap]
    exact hrounds significand (gap_pos units) hcount (by omega) (by omega) (by omega)

end RoundsTo

end Number

end CircuitCode
