import CircuitCode.Element.Basic

/-!
# Equality of elements

Elements are compared as their parts are. The numbers among these are compared as values, so equal
elements need not be the same: one may have a zero with a sign where the other has none.
-/

namespace CircuitCode

theorem Parameter.beq_iff {p q : Parameter} :
    (p == q) = true ↔
      p.name = q.name ∧ (p.value == q.value) = true ∧ (p.lower == q.lower) = true ∧
        (p.upper == q.upper) = true ∧ p.fixed = q.fixed := by
  show instBEqParameter.beq p q = true ↔ _
  cases p
  cases q
  simp [instBEqParameter.beq]

theorem Element.beq_iff {e e' : Element} :
    (e == e') = true ↔
      e.kind = e'.kind ∧ e.identifier = e'.identifier ∧ e.label = e'.label ∧
        (e.parameters == e'.parameters) = true := by
  show instBEqElement.beq e e' = true ↔ _
  cases e
  cases e'
  simp [instBEqElement.beq]

end CircuitCode
