import CircuitCode.Element.Kind
import CircuitCode.Proofs.Number.Nearest

/-!
# Limits of the kinds in circuit code

The limits that the kinds of elements have by definition read back unchanged from circuit code,
whatever the number of decimals.
-/

namespace CircuitCode

namespace Number

open Digits

theorem reread_zero (decimals : Nat) : (0 : Number).reread decimals = 0 := by
  rw [ofNat_zero, zero, reread, Digits.rounded, if_pos rfl, Nat.ofDigitChars_replicate_zero,
    Nat.mul_zero]
  simp [ofDecimal]

/-- A number reads back at every count of decimals if it does at those below sixteen. -/
theorem reread_of_short {x : Number} (hx : x.rank ≠ 0)
    (hshort : ∀ decimals < 16, x.reread decimals = x) (decimals : Nat) :
    x.reread decimals = x := by
  rcases Nat.lt_or_ge decimals 16 with hlt | hge
  · exact hshort decimals hlt
  · exact reread_eq_self hx hge

theorem reread_one (decimals : Nat) : (1 : Number).reread decimals = 1 :=
  reread_of_short (by decide +kernel) (by decide +kernel) decimals

theorem reread_thousand (decimals : Nat) : (1e3 : Number).reread decimals = 1e3 :=
  reread_of_short (by decide +kernel) (by decide +kernel) decimals

/-- The least capacitance reads back although no number is exactly `1e-24`. -/
theorem reread_tiny (decimals : Nat) : (1e-24 : Number).reread decimals = 1e-24 :=
  reread_of_short (by decide +kernel) (by decide +kernel) decimals

end Number

open Number

namespace ElementKind

theorem limits_mem (kind : ElementKind) :
    ∀ d ∈ kind.parameters,
      (d.lower = 0 ∨ d.lower = 1e-24 ∨ d.lower = -.infinity) ∧
        (d.upper = 1 ∨ d.upper = 1e3 ∨ d.upper = .infinity) := by
  cases kind <;> decide +kernel

theorem isNaN_limits (kind : ElementKind) :
    ∀ d ∈ kind.parameters, d.lower.isNaN = false ∧ d.upper.isNaN = false := by
  cases kind <;> decide +kernel

theorem reread_lower {kind : ElementKind} {d : ParameterDefinition} (hd : d ∈ kind.parameters)
    (decimals : Nat) : d.lower.reread decimals = d.lower := by
  rcases (kind.limits_mem d hd).1 with h | h | h <;> rw [h]
  · exact reread_zero decimals
  · exact reread_tiny decimals
  · rfl

theorem reread_upper {kind : ElementKind} {d : ParameterDefinition} (hd : d ∈ kind.parameters)
    (decimals : Nat) : d.upper.reread decimals = d.upper := by
  rcases (kind.limits_mem d hd).2 with h | h | h <;> rw [h]
  · exact reread_one decimals
  · exact reread_thousand decimals
  · rfl

end ElementKind

end CircuitCode
