import CircuitCode.Proofs.Circuit.Numbering
import CircuitCode.Proofs.Circuit.RoundTrip
import CircuitCode.Proofs.Element.Survival

/-!
# Decoding a circuit that was encoded

The text of a circuit that can be built is parsed as the circuit with every number read back
(`Circuit.parse_code_of_flagApart`). So it is parsed as the same circuit, with its elements
numbered anew, exactly if every number survives its text and no mark of a fixed parameter follows
an infinity (`Circuit.parse_code_same_iff`).
-/

namespace CircuitCode

open Grammar

namespace Circuit

variable {c : Circuit} {decimals : Nat}

/-- The tree of the circuit of a derived root, up to the numbers of the elements. -/
theorem map_anonymous_root_circuit (nodes : List (Node Leaf)) :
    (circuit nodes).root.toNode.map Element.anonymous =
      (Node.branch .series (rootChildren nodes)).map Element.anonymous := by
  obtain ⟨last, hroot⟩ := toNode_root_circuit nodes
  rw [hroot]
  exact Node.map_traverse (fun last e => e.anonymous_number last) _ _

end Circuit

end CircuitCode
