import CircuitCode.Circuit.Text
import CircuitCode.Proofs.Circuit.Lookup
import CircuitCode.Proofs.Connection.Editing
import CircuitCode.Proofs.Element.Change

/-!
# Changes of elements in place

An element of a circuit can be changed by its number, along the path to it, or by its number inside
a connection. Each of these changes one element (`Circuit.ChangesOnly`), and the elements of a
connection are those of the circuit from some number on, so all three come to the same
(`Circuit.edit_touches_one`).
-/

namespace CircuitCode

namespace Node

variable {α β : Type}

mutual

/-- The connections of a tree with other leaves. -/
theorem connections_map (f : α → β) (node : Node α) :
    (node.map f).connections.map Connection.toNode =
      node.connections.map fun d => d.toNode.map f := by
  cases node with
  | leaf a => rfl
  | branch kind children =>
    rw [map_branch, connections, connections, List.map_cons, List.map_cons,
      connectionsIn_map f children]
    congr 1
    exact (map_branch f kind children).symm

theorem connectionsIn_map (f : α → β) (nodes : List (Node α)) :
    (connectionsIn (nodes.map (map f))).map Connection.toNode =
      (connectionsIn nodes).map fun d => d.toNode.map f := by
  cases nodes with
  | nil => rfl
  | cons node nodes =>
    rw [List.map_cons, connectionsIn, connectionsIn, List.map_append, List.map_append,
      connections_map f node, connectionsIn_map f nodes]

end

/-- How many connections there are does not depend on the leaves. -/
theorem connectionCountIn_map (f : α → β) (nodes : List (Node α)) :
    connectionCountIn (nodes.map (map f)) = connectionCountIn nodes := by
  have hlength := congrArg List.length (connectionsIn_map f nodes)
  rw [List.length_map, List.length_map] at hlength
  rw [connectionCountIn_eq, connectionCountIn_eq, hlength]

/-- The path to a connection does not depend on the leaves. -/
theorem locateIn_map (f : α → β) : ∀ (nodes : List (Node α)) (position index : Nat),
    locateIn (nodes.map (map f)) position index = locateIn nodes position index
  | [], _, _ => rfl
  | leaf _ :: nodes, position, index => locateIn_map f nodes (position + 1) index
  | branch kind children :: nodes, position, index => by
    rw [List.map_cons, map_branch, locateIn_branch, locateIn_branch, connectionCountIn_map,
      locateIn_map f children, locateIn_map f nodes]

/-- The bare text of a tree, which needs of its leaves only what no change touches. -/
def frameText : Node (ElementKind × Option Nat) → String :=
  fold (fun frame => frame.1.symbol) ConnectionKind.enclose

theorem text_none_eq (node : Node Element) :
    node.text none = (node.map Element.frame).frameText := by
  have hframe : (node.map Element.frame).frameText =
      node.fold (fun e => e.frame.1.symbol) ConnectionKind.enclose := fold_map node
  rw [hframe]
  rfl

end Node

theorem Connection.toNode_injective {α : Type} {c d : Connection α} (h : c.toNode = d.toNode) :
    c = d := by
  obtain ⟨hkind, hchildren⟩ := Node.branch.inj h
  cases c
  cases d
  cases hkind
  cases hchildren
  rfl

/-- A change at one place of a list that leaves the member there as it is. -/
theorem modify_eq_self_of_forall {α : Type} {as : List α} {index : Nat} {f : α → α}
    (h : ∀ a, as[index]? = some a → f a = a) : as.modify index f = as := by
  refine List.ext_getElem? fun i => ?_
  rw [List.getElem?_modify]
  cases ha : as[i]? with
  | none => rfl
  | some a =>
    by_cases hi : index = i
    · subst hi
      simp [h a ha]
    · simp [hi]

namespace Circuit

variable {c : Circuit} {d : Connection Element} {path : Path}

/-- The number of elements to the left of where a path leads. -/
def elementsBefore (c : Circuit) (path : Path) : Nat := c.elementPaths.countP (· < path)

/-- The second circuit is the first one with one change made to the element of a given number. All
    other elements are as they were, and so are all connections with the kinds and the identifiers of
    their elements, the paths to them, and their bare texts. If there is no such element, or if it
    refuses the change, nothing has changed. -/
structure ChangesOnly (c c' : Circuit) (index : Nat) (change : ElementChange) : Prop where
  changed : ∀ e, c.elements[index]? = some e → c'.elements[index]? = some (e.changed change)
  others : ∀ i, i ≠ index → c'.elements[i]? = c.elements[i]?
  tree : c'.root.toNode.map Element.frame = c.root.toNode.map Element.frame
  connections : c'.connections.map (fun d => d.toNode.map Element.frame) =
    c.connections.map fun d => d.toNode.map Element.frame
  located : c'.locate = c.locate
  code : c'.code none = c.code none
  texts : c'.connections.map (fun d => d.text none) = c.connections.map fun d => d.text none
  unchanged :
    (∀ e, c.elements[index]? = some e → ∃ cause, (e.change change).2 = .error cause) → c' = c

theorem elements_modifyElement (c : Circuit) (index : Nat) (f : Element → Element) :
    (c.modifyElement index f).elements = c.elements.modify index f :=
  c.root.toNode.leaves_modifyLeaf index f

theorem modifyElement_eq_self {index : Nat} {f : Element → Element}
    (h : ∀ e, c.elements[index]? = some e → f e = e) : c.modifyElement index f = c := by
  have hroot : (c.modifyElement index f).root = c.root :=
    Connection.toNode_injective (Node.eq_of_shape_eq (c.root.toNode.shape_modifyLeaf index f)
      ((c.elements_modifyElement index f).trans (modify_eq_self_of_forall h)))
  exact congrArg Circuit.mk hroot

theorem map_connections_eq (c : Circuit) :
    c.connections.map (fun d => d.toNode.map Element.frame) =
      (c.root.toNode.map Element.frame).connections.map Connection.toNode :=
  (Node.connections_map Element.frame c.root.toNode).symm

/-- A change of an element by its number. -/
theorem changesOnly_modifyElement (c : Circuit) (index : Nat) (change : ElementChange) :
    c.ChangesOnly (c.modifyElement index (Element.changed change)) index change := by
  have htree : (c.modifyElement index (Element.changed change)).root.toNode.map Element.frame =
      c.root.toNode.map Element.frame := by
    refine Node.map_traverse (fun i e => ?_) c.root.toNode 0
    dsimp only
    split
    · exact e.frame_changed change
    · rfl
  have hconnections := c.map_connections_eq
  rw [← htree, ← map_connections_eq] at hconnections
  refine ⟨?_, ?_, htree, hconnections.symm, ?_, ?_, ?_, ?_⟩
  · intro e he
    rw [elements_modifyElement, List.getElem?_modify, he]
    simp
  · intro i hi
    rw [elements_modifyElement, List.getElem?_modify]
    simp [hi.symm]
  · funext number
    cases number with
    | zero => rfl
    | succ number =>
      have hchildren : (c.modifyElement index (Element.changed change)).root.children.map
          (Node.map Element.frame) = c.root.children.map (Node.map Element.frame) := by
        rw [Connection.toNode, Connection.toNode, Node.map_branch, Node.map_branch] at htree
        exact (Node.branch.inj htree).2
      have hlocate := congrArg (fun nodes => Node.locateIn nodes 0 number) hchildren
      simp only [Node.locateIn_map] at hlocate
      exact hlocate
  · rw [code, code, Connection.text, Connection.text, Node.text_none_eq, htree,
      ← Node.text_none_eq]
  · have htexts := congrArg (List.map Node.frameText) hconnections.symm
    rw [List.map_map, List.map_map] at htexts
    simpa only [Connection.text, Node.text_none_eq, Function.comp_def] using htexts
  · intro hfails
    apply modifyElement_eq_self
    intro e he
    obtain ⟨cause, hcause⟩ := hfails e he
    exact Element.changed_of_error hcause

/-- The paths to the elements grow from left to right, and each leads to the element of its
    number. -/
theorem elementPaths_lead (c : Circuit) :
    c.elementPaths.Pairwise (· < ·) ∧
      c.elementPaths.map (fun path => c.root.toNode.get? path) =
        c.elements.map fun e => some (.leaf e) :=
  ⟨c.root.toNode.sorted_leafPaths, c.root.toNode.map_get?_leafPaths⟩

theorem modifyElementAt_eq {index : Nat} (h : c.elementPaths[index]? = some path)
    (f : Element → Element) : c.modifyElementAt path f = c.modifyElement index f := by
  have hroot : (c.root.modifyLeafAt f path) = c.root.modifyLeaf index f :=
    Connection.toNode_injective ((c.root.toNode_modifyLeafAt f path).trans
      (Node.modifyLeafAt_eq_modifyLeaf h f))
  exact congrArg Circuit.mk hroot

/-- The path to a connection leads to the one that is looked up under the number. -/
theorem get?_of_connection? {number : Nat} (hpath : c.locate number = some path)
    (hd : c.connection? number = some d) : c.root.toNode.get? path = some d.toNode := by
  have hat := c.lookupsAgree.at?_locate number
  rw [hpath, hd, Option.bind_some, Connection.at?_eq] at hat
  obtain ⟨part, hpart, hconnection⟩ := Option.bind_eq_some_iff.mp hat
  cases part with
  | leaf e => cases hconnection
  | branch kind children =>
    obtain rfl := Option.some.inj hconnection
    exact hpart

/-- The elements of a connection are those of the circuit from some number on. -/
theorem elements_segment {number : Nat} (hpath : c.locate number = some path)
    (hd : c.connection? number = some d) :
    c.elementsBefore path + d.leaves.length ≤ c.elements.length ∧
      (c.elements.drop (c.elementsBefore path)).take d.leaves.length = d.leaves := by
  obtain ⟨left, right, hlength, hleaves, -⟩ := Node.exists_leaves_eq (get?_of_connection? hpath hd)
  have helements : c.elements = left ++ (d.leaves ++ right) := hleaves
  have hbefore : c.elementsBefore path = left.length := hlength.symm
  rw [helements, hbefore]
  constructor
  · simp only [List.length_append]
    omega
  · rw [List.drop_left, List.take_left]

/-- A change inside a connection puts the changed connection in its place. -/
theorem toNode_modifyElementIn {number index : Nat} (hpath : c.locate number = some path)
    (hd : c.connection? number = some d) (f : Element → Element) :
    (c.modifyElementIn number index f).root.toNode =
      Node.replaceAt (d.toNode.modifyLeaf index f) path c.root.toNode := by
  have hat : c.root.at? path = some d := by
    rw [Connection.at?_eq, get?_of_connection? hpath hd]
    rfl
  unfold modifyElementIn
  rw [hpath]
  exact Connection.toNode_modifyAt _ hat

theorem modifyElementIn_eq {number index : Nat} (hpath : c.locate number = some path)
    (hd : c.connection? number = some d) (hindex : index < d.leaves.length)
    (f : Element → Element) :
    c.modifyElementIn number index f = c.modifyElement (c.elementsBefore path + index) f := by
  have hroot : (c.modifyElementIn number index f).root =
      (c.modifyElement (c.elementsBefore path + index) f).root :=
    Connection.toNode_injective ((toNode_modifyElementIn hpath hd f).trans
      (Node.replaceAt_modifyLeaf (get?_of_connection? hpath hd) hindex f))
  exact congrArg Circuit.mk hroot

theorem modifyElementIn_eq_self {number index : Nat} (f : Element → Element)
    (h : ∀ d, c.connection? number = some d → d.leaves.length ≤ index) :
    c.modifyElementIn number index f = c := by
  have hagree := c.lookupsAgree
  cases hd : c.connection? number with
  | none =>
    have hpath : c.locate number = none := by
      rwa [hagree.locate_eq_none_iff, ← hagree.find?_eq_none_iff]
    unfold modifyElementIn
    rw [hpath]
  | some d =>
    obtain ⟨path, hpath⟩ : ∃ path, c.locate number = some path := by
      rw [← Option.ne_none_iff_exists', Ne, hagree.locate_eq_none_iff, ← hagree.find?_eq_none_iff,
        hd]
      exact Option.some_ne_none d
    have hsame : d.toNode.modifyLeaf index f = d.toNode := by
      refine Node.eq_of_shape_eq (d.toNode.shape_modifyLeaf index f) ?_
      exact (d.toNode.leaves_modifyLeaf index f).trans (List.modify_eq_self (h d hd))
    obtain ⟨left, right, -, hleaves, hreplaced⟩ :=
      Node.exists_leaves_eq (get?_of_connection? hpath hd)
    have hroot : (c.modifyElementIn number index f).root = c.root := by
      apply Connection.toNode_injective
      rw [toNode_modifyElementIn hpath hd, hsame]
      refine Node.eq_of_shape_eq (Node.shape_replaceAt (get?_of_connection? hpath hd) rfl) ?_
      rw [hreplaced, hleaves]
    exact congrArg Circuit.mk hroot

/-- Changes of elements in place. The elements of the connection with some number are those of the
    circuit from the first one on that has no smaller path than the connection. A change by the
    number of an element, along the path to it, or by its number inside a connection is the change
    of just this element, and a number that is too large changes nothing. -/
theorem edit_touches_one (c : Circuit) :
    (c.elementPaths.Pairwise (· < ·) ∧
      c.elementPaths.map (fun path => c.root.toNode.get? path) =
        c.elements.map fun e => some (.leaf e)) ∧
    (∀ number path d, c.locate number = some path → c.connection? number = some d →
      c.elementsBefore path + d.leaves.length ≤ c.elements.length ∧
        (c.elements.drop (c.elementsBefore path)).take d.leaves.length = d.leaves) ∧
    ∀ change : ElementChange,
      (∀ index, c.ChangesOnly (c.modifyElement index (Element.changed change)) index change) ∧
      (∀ index path, c.elementPaths[index]? = some path →
        c.ChangesOnly (c.modifyElementAt path (Element.changed change)) index change) ∧
      (∀ number path d index, c.locate number = some path → c.connection? number = some d →
        index < d.leaves.length →
        c.ChangesOnly (c.modifyElementIn number index (Element.changed change))
          (c.elementsBefore path + index) change) ∧
      ∀ number index, (∀ d, c.connection? number = some d → d.leaves.length ≤ index) →
        c.modifyElementIn number index (Element.changed change) = c := by
  refine ⟨c.elementPaths_lead, fun number path d hpath hd => elements_segment hpath hd,
    fun change => ⟨?_, ?_, ?_, ?_⟩⟩
  · exact fun index => c.changesOnly_modifyElement index change
  · intro index path hpath
    rw [modifyElementAt_eq hpath]
    exact c.changesOnly_modifyElement index change
  · intro number path d index hpath hd hindex
    rw [modifyElementIn_eq hpath hd hindex]
    exact c.changesOnly_modifyElement _ change
  · exact fun number index h => modifyElementIn_eq_self _ h

/-- A series with a parallel connection in it, and in this another series. -/
def nestedLadder : Circuit :=
  .ofConnection ⟨.series, [.leaf (.ofKind .resistor),
    .branch .parallel [.leaf (.ofKind .capacitor),
      .branch .series [.leaf (.ofKind .inductor), .leaf (.ofKind .constantPhase)]],
    .leaf (.ofKind .warburg)]⟩

/-- The second element of the inner series is the fourth of the circuit. -/
theorem edit_touches_one_nestedLadder :
    ∃ d, nestedLadder.locate 2 = some [1, 1] ∧ nestedLadder.connection? 2 = some d ∧
      d.leaves.map Element.kind = [.inductor, .constantPhase] ∧
      (nestedLadder.elements.drop 2).take 2 = d.leaves ∧
      nestedLadder.ChangesOnly
        (nestedLadder.modifyElementIn 2 1 (Element.changed (.value "n" 0.5))) 3
        (.value "n" 0.5) := by
  obtain ⟨-, hsegment, hchanges⟩ := edit_touches_one nestedLadder
  have hbefore : nestedLadder.elementsBefore [1, 1] = 2 := by decide
  obtain ⟨-, hleaves⟩ := hsegment 2 [1, 1] _ rfl rfl
  have hchange := (hchanges (.value "n" 0.5)).2.2.1 2 [1, 1] _ 1 rfl rfl (by decide)
  rw [hbefore] at hleaves hchange
  exact ⟨_, rfl, rfl, rfl, hleaves, hchange⟩

end Circuit

end CircuitCode
