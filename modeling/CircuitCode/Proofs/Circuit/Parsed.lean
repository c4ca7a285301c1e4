import CircuitCode.Circuit.Text
import CircuitCode.Proofs.Connection.Splicing
import CircuitCode.Proofs.Parsing.Exactness

/-!
# Circuits that were parsed

What holds of a circuit that comes out of a text: its tree alternates and has the elements that the
derived nodes give (`Grammar.circuit_canonical`), and every element is well formed.
-/

namespace CircuitCode

/-- The element without its identifier. -/
def Element.anonymous (e : Element) : Element := { e with identifier := none }

namespace Element

theorem anonymous_number (last : ElementKind → Nat) (e : Element) :
    (e.number last).1.anonymous = e.anonymous := by
  unfold number
  dsimp only
  split <;> rfl

theorem text_anonymous (e : Element) (decimals : Option Nat) :
    e.anonymous.text decimals = e.text decimals := rfl

theorem text_number (last : ElementKind → Nat) (e : Element) (decimals : Option Nat) :
    (e.number last).1.text decimals = e.text decimals := by
  rw [← text_anonymous, anonymous_number, text_anonymous]

theorem wellFormed_anonymous {e : Element} : e.anonymous.WellFormed ↔ e.WellFormed :=
  ⟨fun h => ⟨h.names, h.ordered, h.label⟩, fun h => ⟨h.names, h.ordered, h.label⟩⟩

end Element

namespace Grammar

theorem toNode_root_circuit (nodes : List (Node Leaf)) :
    ∃ last, (circuit nodes).root.toNode =
      ((Node.branch .series (rootChildren nodes)).traverse Element.number last).1 := by
  rw [circuit_eq]
  exact ⟨_, rfl⟩

theorem code_circuit (nodes : List (Node Leaf)) (decimals : Option Nat) :
    (circuit nodes).code decimals = (Node.branch .series (rootChildren nodes)).text decimals := by
  obtain ⟨last, hroot⟩ := toNode_root_circuit nodes
  rw [Circuit.code, Connection.text, hroot]
  exact Node.fold_traverse (fun last e => e.text_number last decimals) _ _

theorem alternating_root (nodes : List (Node Leaf)) :
    (Node.branch .series (rootChildren nodes)).Alternating := by
  rw [Node.alternating_branch]
  refine Node.alternating_of_mem_splice ?_
  rw [List.forall_mem_map]
  exact fun node _ => Node.alternating_spliced _

theorem alternating_circuit (nodes : List (Node Leaf)) :
    (circuit nodes).root.toNode.Alternating := by
  obtain ⟨last, hroot⟩ := toNode_root_circuit nodes
  rw [hroot, Node.alternating_traverse]
  exact alternating_root nodes

mutual

theorem DerivesNode.filled {tokens : List Token} {node : Node Leaf} (h : DerivesNode tokens node) :
    node.Filled := by
  cases h with
  | element hsymbol hkind hblock => exact Node.filled_leaf _
  | connection hopening hinner hcount hclosing =>
    exact Node.filled_branch.mpr ⟨hcount, hinner.filled⟩

theorem DerivesNodes.filled {tokens : List Token} {nodes : List (Node Leaf)}
    (h : DerivesNodes tokens nodes) : ∀ node ∈ nodes, node.Filled := by
  cases h with
  | nil => exact nofun
  | cons hnode hrest => exact List.forall_mem_cons.mpr ⟨hnode.filled, hrest.filled⟩

end

/-- The root of a derived circuit and all connections in it have the nodes that they need. -/
theorem DerivesNodes.filled_root {tokens : List Token} {nodes : List (Node Leaf)}
    (h : DerivesNodes tokens nodes) (hne : nodes ≠ []) :
    (Node.branch .series (rootChildren nodes)).Filled := by
  have htrees : ∀ node ∈ nodes.map tree, node.Filled := by
    refine List.forall_mem_map.mpr fun node hnode => Node.filled_spliced ?_
    rw [Node.filled_map]
    exact h.filled node hnode
  obtain ⟨hlength, hfilled⟩ := Node.filled_flatMap_splice .series htrees
  rw [List.length_map] at hlength
  exact Node.filled_branch.mpr ⟨Nat.le_trans (List.length_pos_iff.mpr hne) hlength, hfilled⟩

theorem leaves_tree (node : Node Leaf) : (tree node).leaves = node.leaves.map Leaf.element := by
  rw [tree, Node.leaves_spliced, Node.leaves_map]

/-- The leaves of the root are the elements that are given, from left to right. -/
theorem leaves_root (nodes : List (Node Leaf)) :
    (Node.branch .series (rootChildren nodes)).leaves =
      (nodes.flatMap Node.leaves).map Leaf.element := by
  rw [Node.leaves_branch, rootChildren, Node.leaves_flatMap_splice, List.flatMap_map,
    List.map_flatMap]
  exact List.flatMap_congr fun node _ => leaves_tree node

/-- The elements of the circuit are the leaves of the root with their identifiers. -/
theorem elements_circuit (nodes : List (Node Leaf)) :
    (circuit nodes).elements.map Element.anonymous =
      (Node.branch .series (rootChildren nodes)).leaves := by
  obtain ⟨last, hroot⟩ := toNode_root_circuit nodes
  rw [Circuit.elements, Connection.leaves, hroot,
    Node.map_leaves_traverse (fun last e => e.anonymous_number last), leaves_root, List.map_map]
  rfl

/-- The circuit that nodes make up is a series that alternates. From left to right it has the
    elements that the nodes give, apart from their identifiers. -/
theorem circuit_canonical (nodes : List (Node Leaf)) :
    (circuit nodes).root.kind = .series ∧ (circuit nodes).root.toNode.Alternating ∧
      (circuit nodes).elements.map Element.anonymous =
        (nodes.flatMap Node.leaves).map Leaf.element := by
  refine ⟨?_, alternating_circuit nodes, (elements_circuit nodes).trans (leaves_root nodes)⟩
  rw [circuit_eq]
  rfl

theorem BlockEnd.label_mem {tokens : List Token} {label : Option String} {text : String}
    (h : BlockEnd tokens label) (htext : label = some text) :
    ∃ token ∈ tokens, token.kind = .label ∧ token.text = text := by
  cases h with
  | bare => cases htext
  | @label colon token brace hcolon hlabel hbrace =>
    exact ⟨token, by simp, hlabel, Option.some.inj htext⟩

theorem BlockBody.label_mem {tokens : List Token} {definitions : List Definition}
    {label : Option String} {text : String} (h : BlockBody tokens definitions label)
    (htext : label = some text) : ∃ token ∈ tokens, token.kind = .label ∧ token.text = text := by
  induction h with
  | last hdefinition hclose =>
    obtain ⟨token, hmem, hlabel⟩ := hclose.label_mem htext
    exact ⟨token, List.mem_append_right _ hmem, hlabel⟩
  | cons hdefinition hcomma hrest ih =>
    obtain ⟨token, hmem, hlabel⟩ := ih htext
    exact ⟨token, List.mem_append_right _ (List.mem_cons_of_mem _ hmem), hlabel⟩

theorem Block.label_mem {tokens : List Token} {definitions : List Definition}
    {label : Option String} {text : String} (h : Block tokens definitions label)
    (htext : label = some text) : ∃ token ∈ tokens, token.kind = .label ∧ token.text = text := by
  cases h with
  | absent => cases htext
  | present hbrace hbody =>
    obtain ⟨token, hmem, hlabel⟩ := hbody.label_mem htext
    exact ⟨token, List.mem_cons_of_mem _ hmem, hlabel⟩

mutual

/-- The label of a derived element is the text of a token. -/
theorem DerivesNode.label_mem {tokens : List Token} {node : Node Leaf} {x : Leaf} {text : String}
    (h : DerivesNode tokens node) (hx : x ∈ node.leaves) (htext : x.label = some text) :
    ∃ token ∈ tokens, token.kind = .label ∧ token.text = text := by
  cases h with
  | element hsymbol hkind hblock =>
    obtain rfl := List.mem_singleton.mp hx
    obtain ⟨token, hmem, hlabel⟩ := hblock.label_mem htext
    exact ⟨token, List.mem_cons_of_mem _ hmem, hlabel⟩
  | connection hopening hinner hcount hclosing =>
    rw [Node.leaves_branch] at hx
    obtain ⟨token, hmem, hlabel⟩ := hinner.label_mem hx htext
    exact ⟨token, List.mem_cons_of_mem _ (List.mem_append_left _ hmem), hlabel⟩

theorem DerivesNodes.label_mem {tokens : List Token} {nodes : List (Node Leaf)} {x : Leaf}
    {text : String} (h : DerivesNodes tokens nodes) (hx : x ∈ nodes.flatMap Node.leaves)
    (htext : x.label = some text) :
    ∃ token ∈ tokens, token.kind = .label ∧ token.text = text := by
  cases h with
  | nil => cases hx
  | cons hnode hrest =>
    rw [List.flatMap_cons, List.mem_append] at hx
    rcases hx with hx | hx
    · obtain ⟨token, hmem, hlabel⟩ := hnode.label_mem hx htext
      exact ⟨token, List.mem_append_left _ hmem, hlabel⟩
    · obtain ⟨token, hmem, hlabel⟩ := hrest.label_mem hx htext
      exact ⟨token, List.mem_append_right _ hmem, hlabel⟩

end

namespace Leaf

/-- A parameter that is given lies between its limits, and so does a default. -/
theorem ordered_parameter {x : Leaf} (hx : x.Valid) {p : ParameterDefinition}
    (hp : p ∈ x.kind.parameters) : (x.parameter p).Ordered := by
  unfold parameter
  split
  · next d hfind =>
    have hname : d.name = p.name := by simpa using List.find?_some hfind
    exact hx.ordered d (List.mem_of_find?_eq_some hfind) p hp hname.symm
  · exact x.kind.ordered_instantiate p hp

/-- What is given for an element makes a well-formed one. -/
theorem wellFormed_element {x : Leaf} (hx : x.Valid)
    (hlabel : ∀ text, x.label = some text → IsLabelText text) : x.element.WellFormed := by
  refine ⟨x.names_element, ?_, ?_⟩
  · intro p hp
    obtain ⟨d, hd, rfl⟩ := List.mem_map.mp hp
    exact ordered_parameter hx hd
  · intro text htext
    obtain ⟨htext, hne⟩ := Option.filter_eq_some_iff.mp htext
    exact ⟨by simpa using hne, (isLabel_iff (hlabel text htext)).mpr (hx.label text htext)⟩

end Leaf

end Grammar

open Grammar

/-- The circuit that is taken from a text is the one that the text is parsed as. -/
theorem Circuit.parse_eq_ok_getD {text : String} (h : (parse text).isOk = true)
    (default : Circuit) : parse text = .ok ((parse text).toOption.getD default) := by
  cases hparse : parse text with
  | ok c => rfl
  | error cause =>
    rw [hparse] at h
    cases h

instance (text : String) (e : ParseError) : Decidable (parse text = .error e) :=
  decidable_of_iff ((parse text).map (fun _ => ()) = .error e)
    (by cases parse text <;> simp [Except.map])

theorem Circuit.alternating_of_parse {text : String} {c : Circuit} (h : parse text = .ok c) :
    c.root.toNode.Alternating := by
  obtain ⟨-, nodes, -, -, -, rfl⟩ := parse_eq_ok_iff.mp h
  exact (circuit_canonical nodes).2.1

/-- Every element that was parsed is well formed. -/
theorem Circuit.wellFormed_of_parse {text : String} {c : Circuit} (h : parse text = .ok c) :
    ∀ e ∈ c.elements, e.WellFormed := by
  obtain ⟨-, nodes, -, hderives, hvalid, rfl⟩ := parse_eq_ok_iff.mp h
  obtain ⟨-, -, helements⟩ := circuit_canonical nodes
  intro e he
  have hmem := List.mem_map_of_mem (f := Element.anonymous) he
  rw [helements] at hmem
  obtain ⟨x, hx, hxe⟩ := List.mem_map.mp hmem
  rw [← Element.wellFormed_anonymous, ← hxe]
  refine Leaf.wellFormed_element ?_ ?_
  · obtain ⟨node, hnode, hx⟩ := List.mem_flatMap.mp hx
    exact hvalid node hnode x hx
  · intro label hlabel
    obtain ⟨token, htoken, hkind, rfl⟩ := hderives.label_mem hx hlabel
    exact labelsTrimmed_tokenize text token htoken hkind

end CircuitCode
