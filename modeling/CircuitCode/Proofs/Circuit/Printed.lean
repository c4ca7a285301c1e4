import CircuitCode.Proofs.Circuit.Parsed
import CircuitCode.Proofs.Parsing.Printed

/-!
# Scanning the text of a tree

The text of a tree is scanned into the lexemes of its leaves between those of the brackets, and
these derive the tree again. What the leaves are written as does not matter, as long as the text of
one does not run on into the next.
-/

namespace CircuitCode

open Grammar

variable {α : Type}

namespace Node

/-- The lexemes of a tree from those of its leaves. -/
def lexemes (leaf : α → List (TokenKind × String)) : Node α → List (TokenKind × String) :=
  fold leaf fun kind children =>
    ((bracketKinds kind).1, kind.brackets.1) :: (children.flatten ++
      [((bracketKinds kind).2, kind.brackets.2)])

theorem lexemes_branch {leaf : α → List (TokenKind × String)} {kind : ConnectionKind}
    {children : List (Node α)} :
    (branch kind children).lexemes leaf =
      ((bracketKinds kind).1, kind.brackets.1) :: (children.flatMap (lexemes leaf) ++
        [((bracketKinds kind).2, kind.brackets.2)]) := by
  rw [lexemes, fold_branch, ← lexemes, List.flatMap_def]

theorem lexemes_subset {leaf : α → List (TokenKind × String)} {node : Node α} {a : α}
    (ha : a ∈ node.leaves) : leaf a ⊆ node.lexemes leaf := by
  intro lexeme hmem
  induction node using Node.induction with
  | leaf b =>
    obtain rfl := List.mem_singleton.mp ha
    exact hmem
  | branch kind children ih =>
    obtain ⟨child, hchild, ha⟩ := mem_leaves_branch.mp ha
    rw [lexemes_branch, List.mem_cons, List.mem_append, List.mem_flatMap]
    exact Or.inr (Or.inl ⟨child, hchild, ih child hchild ha⟩)

theorem toList_fold_branch {text : α → String} {kind : ConnectionKind}
    {children : List (Node α)} :
    (fold text ConnectionKind.enclose (.branch kind children)).toList =
      kind.brackets.1.toList ++ (children.flatMap fun child =>
        (child.fold text ConnectionKind.enclose).toList) ++ kind.brackets.2.toList := by
  rw [fold_branch, ConnectionKind.enclose, String.toList_append, String.toList_append,
    String.toList_join, List.flatMap_map]

/-- Two texts of a tree are equal only if those of its leaves are, provided that the text of a leaf
    is known wherever it stands. -/
theorem fold_enclose_inj {text text' : α → String} {node : Node α}
    (hleaf : ∀ a ∈ node.leaves, ∀ rest rest' : List Char,
      (text a).toList ++ rest = (text' a).toList ++ rest' → text a = text' a ∧ rest = rest')
    {rest rest' : List Char}
    (h : (node.fold text ConnectionKind.enclose).toList ++ rest =
      (node.fold text' ConnectionKind.enclose).toList ++ rest') :
    (∀ a ∈ node.leaves, text a = text' a) ∧ rest = rest' := by
  induction node using Node.induction generalizing rest rest' with
  | leaf a =>
    obtain ⟨hsame, hrest⟩ := hleaf a (List.mem_singleton.mpr rfl) rest rest' h
    exact ⟨List.forall_mem_singleton.mpr hsame, hrest⟩
  | branch kind children ih =>
    rw [toList_fold_branch, toList_fold_branch] at h
    simp only [List.append_assoc, List.append_cancel_left_eq] at h
    obtain ⟨hsame, hrest⟩ := flatMap_append_inj (p := fun child : Node α =>
      ∀ a ∈ child.leaves, text a = text' a) (fun child hchild rest rest' => ih child hchild
        fun a ha => hleaf a (mem_leaves_branch.mpr ⟨child, hchild, ha⟩)) h
    refine ⟨?_, List.append_cancel_left hrest⟩
    intro a ha
    obtain ⟨child, hchild, ha⟩ := mem_leaves_branch.mp ha
    exact hsame child hchild a ha

end Node

namespace Scans

variable {text : α → String} {leaf : α → List (TokenKind × String)} {rest : List Char}

theorem opening {kind : ConnectionKind} :
    Scans .outside kind.brackets.1.toList rest [((bracketKinds kind).1, kind.brackets.1)]
      .outside := by
  cases kind <;> exact mark (by decide) rfl

theorem closing {kind : ConnectionKind} :
    Scans .outside kind.brackets.2.toList rest [((bracketKinds kind).2, kind.brackets.2)]
      .outside := by
  cases kind <;> exact mark (by decide) rfl

theorem head?_node {tail : List Char}
    (hstart : ∀ a tail, ((text a).toList ++ tail).head?.any Char.isLower = false)
    (node : Node α) :
    ((node.fold text ConnectionKind.enclose).toList ++ tail).head?.any Char.isLower = false := by
  cases node with
  | leaf a => exact hstart a tail
  | branch kind children =>
    rw [Node.toList_fold_branch]
    cases kind <;> rfl

/-- Nodes one after the other are scanned one after the other. -/
theorem nodes {children : List (Node α)}
    (hstart : ∀ a tail, ((text a).toList ++ tail).head?.any Char.isLower = false)
    (hnode : ∀ child ∈ children, ∀ tail, tail.head?.any Char.isLower = false →
      Scans .outside (child.fold text ConnectionKind.enclose).toList tail (child.lexemes leaf)
        .outside)
    (hrest : rest.head?.any Char.isLower = false) :
    Scans .outside (children.flatMap fun child =>
      (child.fold text ConnectionKind.enclose).toList) rest
        (children.flatMap (Node.lexemes leaf)) .outside := by
  induction children with
  | nil => exact nil
  | cons child children ih =>
    obtain ⟨hchild, hchildren⟩ := List.forall_mem_cons.mp hnode
    rw [List.flatMap_cons, List.flatMap_cons]
    refine append (hchild _ ?_) (ih hchildren)
    cases children with
    | nil => exact hrest
    | cons next children =>
      rw [List.flatMap_cons, List.append_assoc]
      exact head?_node hstart next

theorem node {node : Node α}
    (hstart : ∀ a tail, ((text a).toList ++ tail).head?.any Char.isLower = false)
    (hleaf : ∀ a ∈ node.leaves, ∀ tail, tail.head?.any Char.isLower = false →
      Scans .outside (text a).toList tail (leaf a) .outside)
    (hrest : rest.head?.any Char.isLower = false) :
    Scans .outside (node.fold text ConnectionKind.enclose).toList rest (node.lexemes leaf)
      .outside := by
  induction node using Node.induction generalizing rest with
  | leaf a => exact hleaf a (List.mem_singleton.mpr rfl) rest hrest
  | branch kind children ih =>
    rw [Node.toList_fold_branch, Node.lexemes_branch, List.append_assoc]
    refine cons opening (append (nodes hstart (fun child hchild tail htail => ?_) ?_) closing)
    · exact ih child hchild
        (fun a ha => hleaf a (Node.mem_leaves_branch.mpr ⟨child, hchild, ha⟩)) htail
    · cases kind <;> rfl

end Scans

namespace Grammar

variable {leaf : α → List (TokenKind × String)} {f : α → Leaf}

theorem DerivesNodes.of_lexemes {children : List (Node α)} {tokens : List Token}
    (hnode : ∀ child ∈ children, ∀ tokens : List Token,
      tokens.map Token.lexeme = child.lexemes leaf → DerivesNode tokens (child.map f))
    (h : tokens.map Token.lexeme = children.flatMap (Node.lexemes leaf)) :
    DerivesNodes tokens (children.map (Node.map f)) := by
  induction children generalizing tokens with
  | nil =>
    obtain rfl := List.map_eq_nil_iff.mp h
    exact .nil
  | cons child children ih =>
    obtain ⟨hchild, hchildren⟩ := List.forall_mem_cons.mp hnode
    obtain ⟨taken, tokens, rfl, htaken, h⟩ := List.map_eq_append_iff.mp h
    exact .cons (hchild taken htaken) (ih hchildren h)

/-- The lexemes of a tree derive it if those of its leaves do. -/
theorem DerivesNode.of_lexemes {node : Node α} {tokens : List Token}
    (hleaf : ∀ a ∈ node.leaves, ∀ tokens : List Token, tokens.map Token.lexeme = leaf a →
      DerivesNode tokens (.leaf (f a)))
    (hfilled : node.Filled) (h : tokens.map Token.lexeme = node.lexemes leaf) :
    DerivesNode tokens (node.map f) := by
  induction node using Node.induction generalizing tokens with
  | leaf a => exact hleaf a (List.mem_singleton.mpr rfl) tokens h
  | branch kind children ih =>
    obtain ⟨hcount, hchildren⟩ := Node.filled_branch.mp hfilled
    rw [Node.lexemes_branch] at h
    obtain ⟨opening, tokens, rfl, hopening, h⟩ := List.map_eq_cons_iff.mp h
    obtain ⟨inner, tokens, rfl, hinner, h⟩ := List.map_eq_append_iff.mp h
    obtain ⟨closing, tokens, rfl, hclosing, h⟩ := List.map_eq_cons_iff.mp h
    obtain rfl := List.map_eq_nil_iff.mp h
    have hderives : DerivesNodes inner (children.map (Node.map f)) := by
      refine .of_lexemes (fun child hchild tokens htokens => ?_) hinner
      exact ih child hchild
        (fun a ha => hleaf a (Node.mem_leaves_branch.mpr ⟨child, hchild, ha⟩))
        (hchildren child hchild) htokens
    rw [Node.map, Node.fold_branch]
    exact .connection (Prod.mk.inj hopening).1 hderives (by rwa [List.length_map])
      (Prod.mk.inj hclosing).1

/-- The text of a tree is parsed as the tree if the text of each leaf derives what the leaf stands
    for. -/
theorem parse_fold (leaf : α → List (TokenKind × String)) {text : α → String} {root : Node α}
    (hstart : ∀ a tail, ((text a).toList ++ tail).head?.any Char.isLower = false)
    (hscans : ∀ a ∈ root.leaves, ∀ tail, tail.head?.any Char.isLower = false →
      Scans .outside (text a).toList tail (leaf a) .outside)
    (hderives : ∀ a ∈ root.leaves, ∀ tokens : List Token, tokens.map Token.lexeme = leaf a →
      DerivesNode tokens (.leaf (f a)))
    (hvalid : ∀ a ∈ root.leaves, (f a).Valid) (hfilled : root.Filled) :
    parse (root.fold text ConnectionKind.enclose) = .ok (circuit [root.map f]) := by
  obtain ⟨hstray, hlexemes⟩ := Scans.tokenize_eq (Scans.node hstart hscans rfl)
  have hnode := DerivesNode.of_lexemes hderives hfilled hlexemes
  refine parse_eq_ok_iff.mpr ⟨hstray, [root.map f], List.cons_ne_nil _ _, ?_, ?_, rfl⟩
  · simpa using DerivesNodes.cons hnode .nil
  · refine List.forall_mem_singleton.mpr ?_
    rw [Node.leaves_map]
    exact List.forall_mem_map.mpr hvalid

/-- A series that alternates is the root of the circuit that it makes up. -/
theorem branch_rootChildren {root : Node Leaf} {children : List (Node Leaf)}
    (hroot : root = .branch .series children) (halternating : root.Alternating) :
    Node.branch .series (rootChildren [root]) = root.map Leaf.element := by
  have htree : tree root = root.map Leaf.element :=
    Node.spliced_of_alternating ((Node.alternating_map _ root).mpr halternating)
  rw [rootChildren, List.map_singleton, List.flatMap_singleton, htree, hroot, Node.map_branch]
  rfl

end Grammar

end CircuitCode
