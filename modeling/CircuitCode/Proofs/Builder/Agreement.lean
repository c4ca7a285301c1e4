import CircuitCode.Proofs.Builder.Simulation

/-!
# Builders agree with the parser

A builder that is given the leaves and the connections of some trees in their order comes to the
circuit that the bare text of the trees is parsed as, or both stop at the same connection and for
the same reason (`build_agrees_parse`).
-/

namespace CircuitCode

open Grammar Mark

variable {β : Type}

/-- The circuit that a script builds, unless the script ends early. -/
def Step.build (steps : List (Step β)) (b : Builder) : Except Error Circuit :=
  match (runAll steps b).outcome with
  | .ok () => (runAll steps b).builder.finish.mapError .builder
  | .error e => .error e

/-- The bare text of trees, one after the other. -/
def bareText (raw : List (Node ElementKind)) : String :=
  String.join (raw.map fun node => (node.map Element.ofKind).text none)

theorem toList_bareText (raw : List (Node ElementKind)) :
    (bareText raw).toList = chars (raw.flatMap Node.marks) := by
  rw [bareText, String.toList_join, List.flatMap_map, chars, List.flatMap_assoc]
  apply List.flatMap_congr
  intro node _
  exact node.toList_text_map_ofKind

section Parsing

variable {text : String} {marks : List Mark} (htext : text.toList = chars marks)

include htext

theorem parse_of_join_error {e : ParseError}
    (h : Items.join (byteLength text.toList) none [] [] (items 0 marks) = .error e) :
    parse text = .error e := by
  obtain ⟨hstray, hitems⟩ := ofTokens_tokenize htext (byteLength text.toList)
  unfold parse Parser.process
  simp only [hstray, parseTokens, hitems, Items.nodes]
  rw [h]
  rfl

theorem parse_of_join_ok {nodes : List (Node Element)} {root : Connection Element}
    (h : Items.join (byteLength text.toList) none [] [] (items 0 marks) = .ok nodes)
    (hroot : Connection.ofChildren .series nodes = .ok root) :
    parse text = .ok (.ofConnection root) := by
  obtain ⟨hstray, hitems⟩ := ofTokens_tokenize htext (byteLength text.toList)
  unfold parse Parser.process
  simp only [hstray, parseTokens, hitems, Items.nodes]
  rw [h]
  simp only [bind, Except.bind]
  rw [hroot]
  rfl

end Parsing

/-- Adding the leaves of trees and opening and closing a scope for each connection builds the
    circuit that the bare text of the trees is parsed as. Otherwise both stop at the same
    connection: the script cannot close its scope, for the reason that the parser gives with the
    place of the opening bracket, and it could be run up to there. -/
theorem build_agrees_parse {raw : List (Node ElementKind)} (hraw : raw ≠ []) :
    (∃ c, Step.build (script (raw.flatMap Node.marks) : List (Step β)) (.start .series) = .ok c ∧
        parse (bareText raw) = .ok c) ∨
      ∃ (before : List Mark) (kind : ConnectionKind) (children : List (Node ElementKind))
        (after : List Mark) (cause : ConnectionError),
        raw.flatMap Node.marks = before ++ (Node.branch kind children).marks ++ after ∧
        Connection.validate kind children.length = .error cause ∧
        (Step.runAll (script (before ++ .opening kind :: children.flatMap Node.marks) :
          List (Step β)) (.start .series)).outcome = .ok () ∧
        (Step.runAll (script (before ++ .opening kind :: children.flatMap Node.marks) :
          List (Step β)) (.start .series)).builder.close.2 = .error (.connection cause) ∧
        Step.build (script (raw.flatMap Node.marks) : List (Step β)) (.start .series) =
          .error (.builder (.connection cause)) ∧
        parse (bareText raw) =
          .error (.ofConnectionError (byteLength (chars before)) cause) := by
  have htext := toList_bareText raw
  have hstart : (Joining.mk [] []).builder = .start .series := rfl
  by_cases hfilled : ∀ node ∈ raw, node.Filled
  · left
    have hpasses := passes_nodes (β := β) (fun node hnode => passes_node (hfilled node hnode)) 0
      ⟨[], []⟩
    have hroot : Connection.ofChildren .series (raw.map Node.assembled) =
        .ok ⟨.series, (raw.map Node.assembled).flatMap (Connection.splice .series)⟩ := by
      rw [Connection.ofChildren_eq_ok_iff, List.length_map]
      exact ⟨List.length_pos_iff.mpr hraw, rfl⟩
    refine ⟨_, ?_, parse_of_join_ok htext ?_ hroot⟩
    · rw [Step.build, ← hstart, hpasses.outcome, hpasses.builder]
      dsimp only
      rw [List.nil_append, Joining.finish_builder hroot]
      rfl
    · have hjoin := hpasses.join (byteLength (bareText raw).toList) []
      rwa [List.append_nil] at hjoin
  · right
    obtain ⟨before, kind, children, after, s, hmarks, hbefore, hchildren, hcount⟩ :=
      stops_nodes (β := β) (fun node _ hnode => stops_node hnode) hfilled 0 ⟨[], []⟩
    obtain ⟨cause, hcause⟩ := Connection.exists_validate_eq_error hcount
    refine ⟨before, kind, children, after, cause, hmarks, hcause, ?_, ?_, ?_, ?_⟩
    · exact (passes_opened kind hbefore hchildren).outcome
    · exact close_eq_error hbefore hchildren hcause
    · rw [Step.build, ← hstart, hmarks, outcome_eq_error hbefore hchildren hcause]
    · apply parse_of_join_error htext
      rw [hmarks, ← Nat.zero_add (byteLength (chars before))]
      exact join_eq_error hbefore hchildren hcause _ after

/-- A parallel connection of which the second branch is a series of nothing. -/
def emptyBranch : List (Node ElementKind) :=
  [.leaf .resistor, .branch .parallel [.leaf .capacitor, .branch .series []]]

/-- Neither the builder nor the parser accepts the empty branch, and both for one reason. -/
theorem build_agrees_parse_emptyBranch :
    emptyBranch ≠ [] ∧ ∃ (position : Nat) (cause : ConnectionError),
      Step.build (script (emptyBranch.flatMap Node.marks) : List (Step Unit)) (.start .series) =
        .error (.builder (.connection cause)) ∧
      parse (bareText emptyBranch) = .error (.ofConnectionError position cause) := by
  have hne : emptyBranch ≠ [] := List.cons_ne_nil _ _
  refine ⟨hne, ?_⟩
  rcases build_agrees_parse (β := Unit) hne with ⟨c, -, hparse⟩ | hstops
  · have hfails : (parse (bareText emptyBranch)).isOk = false := by decide +kernel
    rw [hparse] at hfails
    cases hfails
  · obtain ⟨before, -, -, -, cause, -, -, -, -, hbuild, hparse⟩ := hstops
    exact ⟨_, cause, hbuild, hparse⟩

end CircuitCode
