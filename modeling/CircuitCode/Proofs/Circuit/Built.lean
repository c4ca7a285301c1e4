import CircuitCode.Proofs.Builder.Nodes
import CircuitCode.Proofs.Circuit.Parsed
import CircuitCode.Proofs.Connection.Leaves
import CircuitCode.Proofs.Element.Change

/-!
# Circuits that can be built

`Circuit.Built` says how circuits come about: they are parsed, finished by a builder or put around a
connection, and their elements are changed or replaced in place. The elements, connections and
circuits that this takes come about in the same ways. All of them are regular (`Node.Regular`):
every connection has the nodes it needs, no connection has a child of its own kind, and every
element is well formed.
-/

namespace CircuitCode

mutual

/-- An element that can be made: a new one, one that was changed, or a copy of one in a tree. -/
inductive Element.Built : Element → Prop where
  | ofKind (kind : ElementKind) : Element.Built (.ofKind kind)
  | changed {e : Element} (he : e.Built) (change : ElementChange) :
      Element.Built (e.changed change)
  | leaf {c : Connection Element} {e : Element} (hc : c.Built) (he : e ∈ c.leaves) :
      Element.Built e

/-- An element or a connection that can be made. -/
inductive Node.Built : Node Element → Prop where
  | leaf {e : Element} (he : e.Built) : Node.Built (.leaf e)
  | connection {c : Connection Element} (hc : c.Built) : Node.Built c.toNode

/-- A connection that can be made: joined nodes, a connection with other elements in their places,
    or a copy of one in a tree. -/
inductive Connection.Built : Connection Element → Prop where
  | join {kind : ConnectionKind} {nodes : List (Node Element)} {c : Connection Element}
      (hnodes : ∀ node ∈ nodes, node.Built) (h : Connection.ofChildren kind nodes = .ok c) :
      Connection.Built c
  | change {c c' : Connection Element} (hc : c.Built) (hshape : c'.toNode.shape = c.toNode.shape)
      (hleaves : ∀ e ∈ c'.leaves, e.Built) : Connection.Built c'
  | nested {c d : Connection Element} (hc : c.Built) (hd : d ∈ c.nested) : Connection.Built d
  | root {c : Circuit} (hc : c.Built) : Connection.Built c.root

/-- A circuit that can be made. What a script of a builder adds can be made before. -/
inductive Circuit.Built : Circuit → Prop where
  | parse {text : String} {c : Circuit} (h : parse text = .ok c) : Circuit.Built c
  | ofConnection {c : Connection Element} (hc : c.Built) : Circuit.Built (.ofConnection c)
  | finish {β : Type} {kind : ConnectionKind} {steps : List (Step β)} {c : Circuit}
      (hnodes : ∀ node ∈ Step.nodesOf steps, node.Built)
      (h : (Step.runAll steps (.start kind)).builder.finish = .ok c) : Circuit.Built c
  | change {c c' : Circuit} (hc : c.Built) (hshape : c'.root.toNode.shape = c.root.toNode.shape)
      (helements : ∀ e ∈ c'.elements, e.Built) : Circuit.Built c'

end

namespace Connection

variable {α : Type}

/-- The leaves of nodes that are joined are those of the connection, from left to right. -/
theorem leaves_ofChildren {kind : ConnectionKind} {nodes : List (Node α)} {c : Connection α}
    (h : ofChildren kind nodes = .ok c) : c.leaves = nodes.flatMap Node.leaves := by
  obtain ⟨-, rfl⟩ := ofChildren_eq_ok_iff.mp h
  rw [leaves, toNode, Node.leaves_branch, Node.leaves_flatMap_splice]

theorem nested_subset (c : Connection α) : c.nested ⊆ c.toNode.connections :=
  List.subset_cons_self _ _

end Connection

/-- What every tree of elements that can be made satisfies. -/
structure Node.Regular (node : Node Element) : Prop where
  filled : node.Filled
  alternating : node.Alternating
  wellFormed : ∀ e ∈ node.leaves, e.WellFormed

namespace Node.Regular

variable {node : Node Element}

theorem leaf {e : Element} (he : e.WellFormed) : Regular (.leaf e) :=
  ⟨filled_leaf e, alternating_leaf e, List.forall_mem_singleton.mpr he⟩

theorem join : Joins Regular := by
  intro kind nodes c hnodes h
  have hleaves := Connection.leaves_ofChildren h
  obtain ⟨hcount, rfl⟩ := Connection.ofChildren_eq_ok_iff.mp h
  obtain ⟨hlength, hfilled⟩ :=
    filled_flatMap_splice kind fun node hnode => (hnodes node hnode).filled
  refine ⟨filled_branch.mpr ⟨Nat.le_trans hcount hlength, hfilled⟩, ?_, ?_⟩
  · exact alternating_branch.mpr
      (alternating_of_mem_splice fun node hnode => (hnodes node hnode).alternating)
  · intro e he
    change e ∈ Connection.leaves _ at he
    rw [hleaves] at he
    obtain ⟨node, hnode, he⟩ := List.mem_flatMap.mp he
    exact (hnodes node hnode).wellFormed e he

/-- The connections inside a regular tree are regular. -/
theorem of_mem (h : node.Regular) {d : Connection Element} (hd : d ∈ node.connections) :
    d.toNode.Regular :=
  ⟨fun d' hd' => h.filled d' (connections_subset hd hd'), h.alternating.of_mem hd,
    fun e he => h.wellFormed e (leaves_subset hd he)⟩

/-- Well-formed elements in the places of those of a regular tree make a regular tree. -/
theorem of_shape_eq (h : node.Regular) {node' : Node Element} (hshape : node'.shape = node.shape)
    (hleaves : ∀ e ∈ node'.leaves, e.WellFormed) : node'.Regular := by
  refine ⟨?_, ?_, hleaves⟩
  · rw [← filled_map (fun _ => ())]
    have hfilled := (filled_map (fun _ => ()) node).mpr h.filled
    exact (congrArg Filled hshape).mpr hfilled
  · rw [← alternating_map (fun _ => ())]
    have halternating := (alternating_map (fun _ => ()) node).mpr h.alternating
    exact (congrArg Alternating hshape).mpr halternating

end Node.Regular

namespace Circuit

theorem regular_asSeries {c : Connection Element} (h : c.toNode.Regular) :
    (asSeries c).toNode.Regular := by
  unfold asSeries
  cases hkind : c.kind with
  | series => exact h
  | parallel =>
    refine ⟨?_, ?_, ?_⟩
    · exact Node.filled_branch.mpr ⟨Nat.le_refl 1, List.forall_mem_singleton.mpr h.filled⟩
    · refine Node.alternating_branch.mpr (List.forall_mem_singleton.mpr ⟨?_, h.alternating⟩)
      change some c.kind ≠ some .series
      rw [hkind]
      decide
    · intro e he
      rw [Connection.toNode, Node.leaves_branch] at he
      obtain ⟨node, hnode, he⟩ := List.mem_flatMap.mp he
      obtain rfl := List.mem_singleton.mp hnode
      exact h.wellFormed e he

theorem wellFormed_number {e : Element} (he : e.WellFormed) (last : ElementKind → Nat) :
    (e.number last).1.WellFormed := by
  rw [← Element.wellFormed_anonymous, Element.anonymous_number, Element.wellFormed_anonymous]
  exact he

theorem regular_ofConnection {c : Connection Element} (h : c.toNode.Regular) :
    (ofConnection c).root.toNode.Regular := by
  have hseries := regular_asSeries h
  refine hseries.of_shape_eq (Node.shape_traverse Element.number (asSeries c).toNode _) ?_
  show ∀ e ∈ ((asSeries c).toNode.traverse Element.number _).1.leaves, e.WellFormed
  exact Node.forall_leaves_traverse
    (fun last e he => wellFormed_number (hseries.wellFormed e he) last) _

theorem kind_asSeries (c : Connection Element) : (asSeries c).kind = .series := by
  unfold asSeries
  cases hkind : c.kind with
  | series => exact hkind
  | parallel => rfl

theorem kind_root_ofConnection (c : Connection Element) : (ofConnection c).root.kind = .series :=
  kind_asSeries c

theorem leaves_asSeries (c : Connection Element) : (asSeries c).leaves = c.leaves := by
  unfold asSeries
  cases hkind : c.kind with
  | series => rfl
  | parallel => exact (Node.leaves_branch _ _).trans (List.flatMap_singleton _ _)

/-- The circuit around a connection has its leaves, up to their numbers. -/
theorem elements_ofConnection (c : Connection Element) :
    (ofConnection c).elements.map Element.anonymous = c.leaves.map Element.anonymous := by
  have hroot := Node.map_leaves_traverse (fun last e => e.anonymous_number last)
    (asSeries c).toNode (highestIdentifier (asSeries c).leaves)
  rw [← leaves_asSeries c]
  exact hroot

theorem kind_root_of_parse {text : String} {c : Circuit} (h : CircuitCode.parse text = .ok c) :
    c.root.kind = .series := by
  obtain ⟨-, nodes, -, -, -, rfl⟩ := parse_eq_ok_iff.mp h
  exact (Grammar.circuit_canonical nodes).1

theorem regular_of_parse {text : String} {c : Circuit} (h : CircuitCode.parse text = .ok c) :
    c.root.toNode.Regular := by
  refine ⟨?_, alternating_of_parse h, wellFormed_of_parse h⟩
  obtain ⟨-, nodes, hne, hderives, -, rfl⟩ := parse_eq_ok_iff.mp h
  obtain ⟨last, hroot⟩ := Grammar.toNode_root_circuit nodes
  rw [hroot, Node.filled_traverse]
  exact hderives.filled_root hne

end Circuit

mutual

theorem Element.Built.wellFormed : ∀ {e : Element}, e.Built → e.WellFormed
  | _, .ofKind kind => Element.wellFormed_ofKind kind
  | _, .changed he change => (Element.Built.wellFormed he).changed change
  | e, .leaf hc he => (Connection.Built.regular hc).wellFormed e he

theorem Node.Built.regular : ∀ {node : Node Element}, node.Built → node.Regular
  | _, .leaf he => .leaf (Element.Built.wellFormed he)
  | _, .connection hc => Connection.Built.regular hc

theorem Connection.Built.regular : ∀ {c : Connection Element}, c.Built → c.toNode.Regular
  | c, .join hnodes h =>
    Node.Regular.join _ _ c (fun node hnode => Node.Built.regular (hnodes node hnode)) h
  | _, .change hc hshape hleaves =>
    (Connection.Built.regular hc).of_shape_eq hshape
      fun e he => Element.Built.wellFormed (hleaves e he)
  | _, .nested hc hd => (Connection.Built.regular hc).of_mem (Connection.nested_subset _ hd)
  | _, .root hc => (Circuit.Built.regular hc).2

/-- The root of every circuit that can be made is a regular series. -/
theorem Circuit.Built.regular :
    ∀ {c : Circuit}, c.Built → c.root.kind = .series ∧ c.root.toNode.Regular
  | _, .parse h => ⟨Circuit.kind_root_of_parse h, Circuit.regular_of_parse h⟩
  | _, .ofConnection hc =>
    ⟨Circuit.kind_root_ofConnection _, Circuit.regular_ofConnection (Connection.Built.regular hc)⟩
  | c, @Circuit.Built.finish β kind steps _ hnodes h => by
    have hall := Builder.All.runAll Node.Regular.join steps (Builder.all_start kind)
      fun node hnode => Node.Built.regular (hnodes node hnode)
    obtain ⟨root, hroot, rfl⟩ := hall.finish Node.Regular.join h
    exact ⟨Circuit.kind_root_ofConnection root, Circuit.regular_ofConnection hroot⟩
  | _, .change hc hshape helements => by
    obtain ⟨hkind, hregular⟩ := Circuit.Built.regular hc
    refine ⟨?_, hregular.of_shape_eq hshape fun e he => Element.Built.wellFormed (helements e he)⟩
    exact (Node.branch.inj hshape).1.trans hkind

end

/-- A change of an element inside a circuit leaves a circuit that can be made. -/
theorem Circuit.Built.modifyElement {c : Circuit} (hc : c.Built) (index : Nat)
    (change : ElementChange) : (c.modifyElement index (Element.changed change)).Built := by
  refine .change hc (Node.shape_traverse _ c.root.toNode 0) ?_
  show ∀ e ∈ (c.root.toNode.traverse _ 0).1.leaves, e.Built
  refine Node.forall_leaves_traverse ?_ 0
  intro s e he
  have helement : e.Built := .leaf (.root hc) he
  by_cases hindex : s = index
  · rw [if_pos hindex]
    exact helement.changed change
  · rw [if_neg hindex]
    exact helement

/-- The form of everything that can be made: at every depth a series has a child, a parallel
    connection has two, and no child is a connection of the same kind; a circuit is a series.
    Joining nodes keeps their leaves in order, and so does the circuit around a connection, which
    only numbers them. -/
theorem canonical_of_built :
    (∀ c : Connection Element, c.Built → c.toNode.Filled ∧ c.toNode.Alternating) ∧
    (∀ c : Circuit, c.Built →
      c.root.kind = .series ∧ c.root.toNode.Filled ∧ c.root.toNode.Alternating) ∧
    (∀ (kind : ConnectionKind) (nodes : List (Node Element)) (c : Connection Element),
      Connection.ofChildren kind nodes = .ok c → c.leaves = nodes.flatMap Node.leaves) ∧
    ∀ c : Connection Element,
      (Circuit.ofConnection c).elements.map Element.anonymous = c.leaves.map Element.anonymous := by
  refine ⟨?_, ?_, ?_, ?_⟩
  · intro c hc
    exact ⟨hc.regular.filled, hc.regular.alternating⟩
  · intro c hc
    obtain ⟨hkind, hregular⟩ := hc.regular
    exact ⟨hkind, hregular.filled, hregular.alternating⟩
  · intro kind nodes c h
    exact Connection.leaves_ofChildren h
  · intro c
    exact Circuit.elements_ofConnection c

/-- A parallel connection whose first branch is spliced, and the circuit around it. -/
theorem canonical_of_built_spliced :
    ∃ pair triple : Connection Element,
      Connection.ofChildren .parallel
        [.leaf (.ofKind .resistor), .branch .series [.leaf (.ofKind .capacitor)]] = .ok pair ∧
      Connection.ofChildren .parallel [pair.toNode, .leaf (.ofKind .warburg)] = .ok triple ∧
      triple.children.length = 3 ∧ triple.Built ∧ (Circuit.ofConnection triple).Built ∧
      (triple.toNode.Filled ∧ triple.toNode.Alternating) ∧
      ((Circuit.ofConnection triple).root.kind = .series ∧
        (Circuit.ofConnection triple).root.toNode.Filled ∧
        (Circuit.ofConnection triple).root.toNode.Alternating) ∧
      triple.leaves = [pair.toNode, .leaf (.ofKind .warburg)].flatMap Node.leaves := by
  have hleaf (kind : ElementKind) : Node.Built (.leaf (.ofKind kind)) := .leaf (.ofKind kind)
  have hseries : Connection.Built ⟨.series, [.leaf (.ofKind .capacitor)]⟩ :=
    .join (List.forall_mem_singleton.mpr (hleaf .capacitor))
      (rfl : Connection.ofChildren .series _ = .ok _)
  have hpair : Connection.Built _ := .join
    (List.forall_mem_cons.mpr
      ⟨hleaf .resistor, List.forall_mem_singleton.mpr (.connection hseries)⟩)
    (rfl : Connection.ofChildren .parallel _ = .ok _)
  have htriple : Connection.Built _ := .join
    (List.forall_mem_cons.mpr ⟨.connection hpair, List.forall_mem_singleton.mpr (hleaf .warburg)⟩)
    (rfl : Connection.ofChildren .parallel _ = .ok _)
  obtain ⟨hconnection, hcircuit, hleaves, -⟩ := canonical_of_built
  exact ⟨_, _, rfl, rfl, rfl, htriple, .ofConnection htriple, hconnection _ htriple,
    hcircuit _ (.ofConnection htriple), hleaves .parallel _ _ rfl⟩

end CircuitCode
