import CircuitCode.Proofs.Circuit.Parsed
import CircuitCode.Proofs.Element.Equality
import CircuitCode.Proofs.Element.Reread

/-!
# Elements that survive their texts

An element is equal to what its text is read as exactly if its numbers are
(`Element.reread_beq_anonymous_iff`). The limits of its kind, which are not written, always are.
-/

namespace CircuitCode

variable {decimals : Nat}

/-- A number that is equal to what its text is read as. -/
def Number.Survives (decimals : Nat) (x : Number) : Prop :=
  ∃ y, ofLiteral? (x.code decimals) = some y ∧ (y == x) = true

instance (x : Number) : Decidable (x.Survives decimals) :=
  decidable_of_iff ((Number.ofLiteral? (x.code decimals)).any (fun y => y == x) = true)
    (by simp [Number.Survives, Option.any_eq_true])

theorem Number.survives_iff {x : Number} (hx : x.isNaN = false) :
    x.Survives decimals ↔ (x.reread decimals == x) = true := by
  unfold Survives
  rw [ofLiteral?_code hx]
  simp

/-- The limits of every kind survive, whatever the number of decimals. -/
theorem ElementKind.survives_limits (kind : ElementKind) (decimals : Nat) :
    ∀ d ∈ kind.parameters, d.lower.Survives decimals ∧ d.upper.Survives decimals := by
  intro d hd
  obtain ⟨hlower, hupper⟩ := kind.isNaN_limits d hd
  rw [Number.survives_iff hlower, Number.survives_iff hupper, reread_lower hd, reread_upper hd]
  exact ⟨Number.beq_iff.mpr ⟨hlower, hlower, rfl⟩, Number.beq_iff.mpr ⟨hupper, hupper, rfl⟩⟩

namespace Parameter

/-- The value and both limits survive. -/
def Survives (decimals : Nat) (p : Parameter) : Prop :=
  p.value.Survives decimals ∧ p.lower.Survives decimals ∧ p.upper.Survives decimals

instance (p : Parameter) : Decidable (p.Survives decimals) :=
  inferInstanceAs (Decidable
    (p.value.Survives decimals ∧ p.lower.Survives decimals ∧ p.upper.Survives decimals))

end Parameter

end CircuitCode
