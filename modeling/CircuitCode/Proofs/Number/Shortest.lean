import CircuitCode.Proofs.Number.Nearest

/-!
# The shortest digits are enough

The search for the shortest digits of a number only takes a decimal that rounds to the number, and
after seventeen decimals any is one. So a plain text reads back as the number it is written for,
with the sign of a zero (`Number.ofText?_plain`), and the texts of different numbers differ
(`Number.plain_injOn`).
-/

namespace CircuitCode

namespace Digits

/-- Positional notation starts with a digit. -/
theorem positional_eq_cons {d : Digits} (hd : d.WellFormed) :
    ∃ c rest, d.positional = c :: rest ∧ c.isDigit = true := by
  obtain ⟨hne, hdigits⟩ := hd
  unfold positional
  cases d.exponent with
  | negSucc zeros => exact ⟨'0', _, rfl, rfl⟩
  | ofNat places =>
    cases hrun : d.digits with
    | nil => exact absurd hrun hne
    | cons first rest => exact ⟨first, _, rfl, hdigits first (by simp [hrun])⟩

/-- There are only digits and a point in it. -/
theorem mem_positional {d : Digits} (hd : d.WellFormed) {c : Char} (hc : c ∈ d.positional) :
    c.isDigit = true ∨ c = '.' := by
  obtain ⟨-, hdigits⟩ := hd
  unfold positional at hc
  cases hexponent : d.exponent with
  | negSucc zeros =>
    simp only [hexponent, List.mem_cons, List.mem_append] at hc
    obtain rfl | rfl | hc | hc := hc
    · exact .inl rfl
    · exact .inr rfl
    · exact .inl (isDigit_of_mem_replicate hc)
    · exact .inl (hdigits c hc)
  | ofNat places =>
    simp only [hexponent, List.mem_append] at hc
    obtain (hc | hc) | hc := hc
    · exact .inl (hdigits c (List.mem_of_mem_take hc))
    · exact .inl (isDigit_of_mem_replicate hc)
    · split at hc
      · cases hc
      · obtain rfl | hc := List.mem_cons.mp hc
        · exact .inr rfl
        · exact .inl (hdigits c (List.mem_of_mem_drop hc))

end Digits

namespace Number

open Digits

/-- The test of a candidate is whether it rounds to the count. -/
theorem RoundsTo.of_readsBack {units candidate : Nat} {place : Int}
    (h : readsBack units candidate place = true) :
    RoundsTo units (decimalQuotient candidate place).1 (decimalQuotient candidate place).2 := by
  obtain ⟨num, den, hquotient, htest⟩ : ∃ num den, decimalQuotient candidate place = (num, den) ∧
      readsBack units candidate place =
        if units / gap units % 2 = 0 then
          decide ((4 * units - gapBelow units) * den ≤ 4 * num ∧
            4 * num ≤ (4 * units + 2 * gap units) * den)
        else
          decide ((4 * units - gapBelow units) * den < 4 * num ∧
            4 * num < (4 * units + 2 * gap units) * den) := by
    unfold readsBack decimalQuotient gapBelow
    generalize 1074 = width
    cases place with
    | ofNat power =>
      have hvalue : 4 * (candidate * 10 ^ power * 2 ^ width) =
          4 * candidate * 2 ^ width * 10 ^ power := by ring
      refine ⟨_, _, rfl, ?_⟩
      rw [hvalue]
    | negSucc power =>
      refine ⟨_, _, rfl, ?_⟩
      rw [← Nat.mul_assoc]
  rw [hquotient]
  change RoundsTo units num den
  rw [htest, Nat.sub_mul, Nat.add_mul, Nat.mul_assoc, Nat.mul_assoc 2] at h
  split at h
  · obtain ⟨hlow, hhigh⟩ := of_decide_eq_true h
    exact ⟨by omega, hhigh, fun hodd => by omega⟩
  · obtain ⟨hlow, hhigh⟩ := of_decide_eq_true h
    exact ⟨by omega, hhigh.le, fun _ => ⟨by omega, hhigh⟩⟩

theorem readsBack_of_onGrid {units digits : Nat} {place : Int}
    (h : onGrid units place = some digits) : readsBack units digits place = true := by
  unfold onGrid at h
  generalize scaled units place = quotient at h
  dsimp only at h
  split at h
  · next hfloor hnext =>
    obtain rfl := Option.some.inj h
    split
    · exact hfloor
    · exact hnext
  · next hfloor _ =>
    obtain rfl := Option.some.inj h
    exact hfloor
  · next _ hnext =>
    obtain rfl := Option.some.inj h
    exact hnext
  · cases h

/-- What the search takes denotes the number. After seventeen decimals it takes what is nearest,
    and that does too. -/
theorem exists_search_eq {units : Nat} (hne : units ≠ 0) (h : Representable units) (count : Nat) :
    ∃ digits place, search units count (leading units - 17 + count) = ofNat digits place ∧
      (ofDecimal false digits place).rank = units := by
  induction count with
  | zero =>
    have hclose := abs_value_rounded_sub_lt hne (show 16 ≤ 17 by decide)
    rw [value_rounded hne] at hclose
    refine ⟨onPlace units (leading units - 17), leading units - 17, ?_,
      rank_ofDecimal_of_close h hclose⟩
    rw [Nat.cast_zero, add_zero]
    rfl
  | succ count ih =>
    unfold search
    split
    · next digits hgrid =>
      refine ⟨digits, _, rfl, ?_⟩
      have hround := (RoundsTo.of_readsBack (readsBack_of_onGrid hgrid)).roundedUnits_eq h
        (decimalQuotient_pos _ _)
      rw [ofDecimal_eq_ofQuotient, rank_ofQuotient, hround, Nat.min_eq_left (Nat.le_of_lt h.1)]
    · have hplace : leading units - 17 + ((count + 1 : Nat) : Int) - 1 =
          leading units - 17 + count := by omega
      rwa [hplace]

/-- The shortest digits of a number denote it. -/
theorem exists_shortest_eq {units : Nat} (hne : units ≠ 0) (h : Representable units) :
    ∃ digits place, shortest units = ofNat digits place ∧
      (ofDecimal false digits place).rank = units := by
  have hshortest : shortest units = search units 18 (leading units + 1) := by
    unfold shortest leading
    generalize 1074 = width
    exact if_neg hne
  have hplace (first : Int) : first + 1 = first - 17 + (18 : Nat) := by omega
  rw [hshortest, hplace]
  exact exists_search_eq hne h 18

/-- A whole part and a fraction, which may be missing, are read as one run of digits. -/
theorem readDecimal_of_isDigit (negative : Bool) (whole fraction : List Char) (hne : whole ≠ [])
    (hwhole : ∀ c ∈ whole, c.isDigit = true) (hfraction : ∀ c ∈ fraction, c.isDigit = true) :
    readDecimal negative (whole ++ if fraction.isEmpty then [] else '.' :: fraction) =
      some (ofDecimal negative (Nat.ofDigitChars 10 (whole ++ fraction) 0) (-fraction.length)) := by
  have hempty : whole.isEmpty = false := by simpa using hne
  have hnil : ([] : List Char).head?.any Char.isDigit = false := rfl
  unfold readDecimal
  cases fraction with
  | nil =>
    rw [List.isEmpty_nil, if_pos rfl, takeWhile_append_of_head? hwhole hnil,
      dropWhile_append_of_head? hwhole hnil]
    simp [splitFraction, readExponent, hempty]
  | cons c fraction =>
    have hpoint : ('.' :: c :: fraction).head?.any Char.isDigit = false := rfl
    have htake := takeWhile_append_of_head? hfraction hnil
    have hdrop := dropWhile_append_of_head? hfraction hnil
    rw [List.append_nil] at htake hdrop
    rw [List.isEmpty_cons, if_neg Bool.false_ne_true, takeWhile_append_of_head? hwhole hpoint,
      dropWhile_append_of_head? hwhole hpoint, splitFraction, htake, hdrop]
    simp [readExponent, hempty]

/-- Positional notation is read as the number that the digits write. -/
theorem readDecimal_positional (negative : Bool) {d : Digits} (hd : d.WellFormed) :
    ∃ digits exponent, readDecimal negative d.positional =
        some (ofDecimal negative digits exponent) ∧ (digits : ℚ) * 10 ^ exponent = d.value := by
  obtain ⟨hne, hdigits⟩ := hd
  have hlength : 0 < d.digits.length := List.length_pos_iff.mpr hne
  have hzeros (count : Nat) : ∀ c ∈ List.replicate count '0', c.isDigit = true :=
    fun c hc => isDigit_of_mem_replicate hc
  unfold positional value
  cases d.exponent with
  | ofNat places =>
    dsimp only
    rcases Nat.lt_or_ge (places + 1) d.digits.length with hlt | hge
    · have htake : (d.digits.take (places + 1)).length = places + 1 :=
        List.length_take_of_le (Nat.le_of_lt hlt)
      have hread := readDecimal_of_isDigit negative (d.digits.take (places + 1))
        (d.digits.drop (places + 1)) (List.ne_nil_of_length_pos (by omega))
        (fun c hc => hdigits c (List.mem_of_mem_take hc))
        (fun c hc => hdigits c (List.mem_of_mem_drop hc))
      rw [htake, Nat.sub_self, List.replicate_zero, List.append_nil]
      refine ⟨_, _, hread, ?_⟩
      rw [List.take_append_drop, List.length_drop, Int.ofNat_eq_natCast]
      congr 2
      omega
    · have hread := readDecimal_of_isDigit negative
        (d.digits ++ List.replicate (places + 1 - d.digits.length) '0') [] (by simp [hne])
        (List.forall_mem_append.mpr ⟨hdigits, hzeros _⟩) (List.forall_mem_nil _)
      rw [List.take_of_length_le hge, List.drop_eq_nil_of_le hge]
      refine ⟨_, _, hread, ?_⟩
      have hplaces : (Int.ofNat places - (d.digits.length - 1) : Int) =
          (places + 1 - d.digits.length : Nat) := by
        rw [Int.ofNat_eq_natCast]
        omega
      rw [List.append_nil, Nat.ofDigitChars_append, Nat.ofDigitChars_replicate_zero, hplaces,
        zpow_natCast]
      push_cast
      simp [mul_comm]
  | negSucc zeros =>
    have hread := readDecimal_of_isDigit negative ['0']
      (List.replicate zeros '0' ++ d.digits) (by simp) (by simp)
      (List.forall_mem_append.mpr ⟨hzeros _, hdigits⟩)
    have hnonempty : (List.replicate zeros '0' ++ d.digits).isEmpty = false := by simp [hne]
    rw [hnonempty, if_neg Bool.false_ne_true] at hread
    refine ⟨_, _, hread, ?_⟩
    rw [← List.append_assoc, Nat.ofDigitChars_append, ← List.replicate_one,
      ← List.replicate_add, Nat.ofDigitChars_replicate_zero, Nat.mul_zero, List.length_append,
      List.length_replicate]
    congr 2
    omega

theorem wellFormed_shortest {units : Nat} (h : Representable units) :
    (shortest units).WellFormed := by
  by_cases hzero : units = 0
  · rw [shortest, if_pos hzero]
    exact ⟨by simp, by simp⟩
  · obtain ⟨digits, place, hshortest, -⟩ := exists_shortest_eq hzero h
    rw [hshortest]
    exact wellFormed_ofNat digits place

/-- A decimal of the same value is the same number, a zero perhaps apart. -/
theorem rank_ofDecimal_congr {digits digits' : Nat} {exponent exponent' : Int}
    (h : (digits : ℚ) * 10 ^ exponent = digits' * 10 ^ exponent') :
    (ofDecimal false digits exponent).rank = (ofDecimal false digits' exponent').rank :=
  le_antisymm (rank_ofDecimal_le h.le) (rank_ofDecimal_le h.ge)

/-- A plain text reads back as the number it is written for, with the sign of a zero. -/
theorem ofText?_plain {x : Number} (hx : x.isNaN = false) : ofText? x.plain = some x := by
  cases x with
  | nan negative => cases hx
  | infinite negative => cases negative <;> rfl
  | finite negative units h =>
    have hd := wellFormed_shortest h
    obtain ⟨c, rest, htext, hc⟩ := positional_eq_cons hd
    have hread : ofText? (finite negative units h).plain =
        readDecimal negative (shortest units).positional := by
      rw [ofText?, plain, write, String.toList_ofList, htext]
      exact ofChars?_of_isDigit negative hc
    rw [hread]
    by_cases hzero : units = 0
    · subst hzero
      rfl
    · obtain ⟨digits, place, hshortest, hrank⟩ := exists_shortest_eq hzero h
      obtain ⟨digits', exponent, hdecimal, hvalue⟩ := readDecimal_positional negative hd
      rw [hshortest, value_ofNat] at hvalue
      have hrank' :
          (ofDecimal negative digits' exponent).rank = (finite negative units h).rank := by
        cases negative with
        | true => rw [rank_ofDecimal_true, rank_ofDecimal_congr hvalue, hrank]; rfl
        | false => rw [rank_ofDecimal_congr hvalue, hrank]; rfl
      have hne : (finite negative units h).rank ≠ 0 := by
        cases negative <;> simp [rank, hzero]
      rw [hdecimal, eq_of_rank_eq (isNaN_ofDecimal _ _ _) rfl hrank' (hrank'.symm ▸ hne)]

/-- Plain texts of different numbers differ. -/
theorem plain_injOn : {x : Number | x.isNaN = false}.InjOn plain := by
  intro x hx y hy h
  have hread := ofText?_plain (x := x) hx
  rw [h, ofText?_plain (x := y) hy] at hread
  exact (Option.some.inj hread).symm

def isFinite : Number → Bool
  | finite _ _ _ => true
  | _ => false

/-- A finite number is written with digits and a point, perhaps after a minus sign. -/
theorem plain_of_isFinite {x : Number} (hx : x.isFinite = true) :
    ∃ sign c rest, x.plain.toList = sign ++ c :: rest ∧ (sign = [] ∨ sign = ['-']) ∧
      c.isDigit = true ∧ ∀ other ∈ rest, other.isDigit = true ∨ other = '.' := by
  cases x with
  | nan negative => cases hx
  | infinite negative => cases hx
  | finite negative units h =>
    have hd := wellFormed_shortest h
    obtain ⟨c, rest, htext, hc⟩ := positional_eq_cons hd
    refine ⟨if negative then ['-'] else [], c, rest, ?_, ?_, hc, fun other hother => ?_⟩
    · rw [plain, write, String.toList_ofList, htext]
    · cases negative <;> simp
    · exact mem_positional hd (htext ▸ List.mem_cons_of_mem c hother)

theorem isNaN_of_isFinite {x : Number} (hx : x.isFinite = true) : x.isNaN = false := by
  cases x with
  | finite => rfl
  | _ => cases hx

end Number

end CircuitCode
