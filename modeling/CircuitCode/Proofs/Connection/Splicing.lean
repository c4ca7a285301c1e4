import CircuitCode.Proofs.Connection.Tree
import CircuitCode.Proofs.Parsing.Grammar

/-!
# Splicing trees

What splicing does to a tree, from the root down or one connection after the other
(`splicedInto_eq_splice`). It leaves an alternating tree, takes no child away from a connection and
keeps the leaves, which a traversal and a map change one by one.
-/

namespace CircuitCode

namespace Node

variable {α : Type}

/-- Splicing from the root down is splicing one connection after the other from the leaves up. -/
theorem splicedInto_eq_splice (kind : ConnectionKind) (node : Node α) :
    node.splicedInto kind = Connection.splice kind node.spliced := by
  cases node with
  | leaf a => rfl
  | branch inner children =>
    rw [splicedInto, fold_branch, ← splicedInto, spliced, Connection.splice, List.flatMap_map]
    by_cases hkind : inner = kind
    · subst hkind
      rw [if_pos rfl, if_pos rfl]
    · rw [if_neg hkind, if_neg hkind, List.flatMap_map]

theorem spliced_branch (kind : ConnectionKind) (children : List (Node α)) :
    (branch kind children).spliced =
      .branch kind ((children.map spliced).flatMap (Connection.splice kind)) := by
  rw [spliced, List.flatMap_map]
  simp only [splicedInto_eq_splice]

theorem alternating_spliced (node : Node α) : node.spliced.Alternating := by
  induction node using Node.induction with
  | leaf a => exact alternating_leaf a
  | branch kind children ih =>
    rw [spliced_branch, alternating_branch]
    refine alternating_of_mem_splice ?_
    rw [List.forall_mem_map]
    exact ih

/-- An alternating tree has nothing to splice. -/
theorem spliced_of_alternating {node : Node α} (h : node.Alternating) : node.spliced = node := by
  induction node using Node.induction with
  | leaf a => rfl
  | branch kind children ih =>
    rw [alternating_branch] at h
    have hchildren : children.map spliced = children := by
      refine (List.map_congr_left fun child hchild => ?_).trans (List.map_id children)
      exact ih child hchild (h child hchild).2
    have hsplice : children.flatMap (Connection.splice kind) = children := by
      refine (List.flatMap_congr fun child hchild => ?_).trans (List.flatMap_singleton' children)
      cases child with
      | leaf a => rfl
      | branch inner inside =>
        have hkind : inner ≠ kind := fun heq => (h _ hchild).1 (congrArg some heq)
        rw [Connection.splice, if_neg hkind]
    rw [spliced_branch, hchildren, hsplice]

/-- Every connection has the nodes that its kind needs. -/
def Filled (node : Node α) : Prop :=
  ∀ d ∈ node.connections, Grammar.leastNodes d.kind ≤ d.children.length

theorem filled_leaf (a : α) : (leaf a).Filled := by
  intro d hd
  cases hd

theorem filled_branch {kind : ConnectionKind} {children : List (Node α)} :
    (branch kind children).Filled ↔
      Grammar.leastNodes kind ≤ children.length ∧ ∀ child ∈ children, child.Filled := by
  unfold Filled
  constructor
  · intro h
    refine ⟨h ⟨kind, children⟩ (mem_connections_branch.mpr (Or.inl rfl)), ?_⟩
    intro child hchild d hd
    exact h d (mem_connections_branch.mpr (Or.inr ⟨child, hchild, hd⟩))
  · rintro ⟨hcount, hchildren⟩ d hd
    rcases mem_connections_branch.mp hd with rfl | ⟨child, hchild, hd⟩
    · exact hcount
    · exact hchildren child hchild d hd

theorem filled_map {β : Type} (f : α → β) (node : Node α) :
    (node.map f).Filled ↔ node.Filled := by
  induction node using Node.induction with
  | leaf a => exact ⟨fun _ => filled_leaf a, fun _ => filled_leaf (f a)⟩
  | branch kind children ih =>
    rw [map_branch, filled_branch, filled_branch, List.length_map, List.forall_mem_map]
    exact and_congr_right' (forall_congr' fun child => forall_congr' fun hchild => ih child hchild)

/-- A node contributes at least one child to a connection, and all that it contributes is filled. -/
theorem filled_splice (kind : ConnectionKind) {node : Node α} (h : node.Filled) :
    1 ≤ (Connection.splice kind node).length ∧
      ∀ child ∈ Connection.splice kind node, child.Filled := by
  cases node with
  | leaf a => exact ⟨Nat.le_refl 1, List.forall_mem_singleton.mpr h⟩
  | branch inner children =>
    rw [Connection.splice]
    split
    · obtain ⟨hcount, hchildren⟩ := filled_branch.mp h
      refine ⟨Nat.le_trans ?_ hcount, hchildren⟩
      cases inner <;> decide
    · exact ⟨Nat.le_refl 1, List.forall_mem_singleton.mpr h⟩

/-- Splicing takes no child away. -/
theorem filled_flatMap_splice (kind : ConnectionKind) {nodes : List (Node α)}
    (h : ∀ node ∈ nodes, node.Filled) :
    nodes.length ≤ (nodes.flatMap (Connection.splice kind)).length ∧
      ∀ child ∈ nodes.flatMap (Connection.splice kind), child.Filled := by
  induction nodes with
  | nil => exact ⟨Nat.le_refl 0, nofun⟩
  | cons node nodes ih =>
    obtain ⟨hnode, hnodes⟩ := List.forall_mem_cons.mp h
    obtain ⟨hcount, hfirst⟩ := filled_splice kind hnode
    obtain ⟨hcount', hothers⟩ := ih hnodes
    rw [List.flatMap_cons, List.length_append, List.length_cons, List.forall_mem_append]
    exact ⟨by omega, hfirst, hothers⟩

theorem filled_spliced {node : Node α} (h : node.Filled) : node.spliced.Filled := by
  induction node using Node.induction with
  | leaf a => exact filled_leaf a
  | branch kind children ih =>
    obtain ⟨hcount, hchildren⟩ := filled_branch.mp h
    have hspliced : ∀ child ∈ children.map spliced, child.Filled :=
      List.forall_mem_map.mpr fun child hchild => ih child hchild (hchildren child hchild)
    obtain ⟨hlength, hfilled⟩ := filled_flatMap_splice kind hspliced
    rw [List.length_map] at hlength
    rw [spliced_branch, filled_branch]
    exact ⟨Nat.le_trans hcount hlength, hfilled⟩

theorem leaves_branch (kind : ConnectionKind) (children : List (Node α)) :
    (branch kind children).leaves = children.flatMap leaves := by
  rw [leaves, fold_branch, ← leaves, List.flatMap_def]

theorem leaves_splice (kind : ConnectionKind) (node : Node α) :
    (Connection.splice kind node).flatMap leaves = node.leaves := by
  cases node with
  | leaf a => exact List.flatMap_singleton leaves _
  | branch inner children =>
    rw [Connection.splice]
    split
    · rw [leaves_branch]
    · exact List.flatMap_singleton leaves _

/-- Splicing keeps the leaves. -/
theorem leaves_flatMap_splice (kind : ConnectionKind) (nodes : List (Node α)) :
    (nodes.flatMap (Connection.splice kind)).flatMap leaves = nodes.flatMap leaves := by
  rw [List.flatMap_assoc]
  simp only [leaves_splice]

theorem leaves_spliced (node : Node α) : node.spliced.leaves = node.leaves := by
  induction node using Node.induction with
  | leaf a => rfl
  | branch kind children ih =>
    rw [spliced_branch, leaves_branch, leaves_flatMap_splice, leaves_branch, List.flatMap_map]
    exact List.flatMap_congr ih

theorem leaves_map {β : Type} (f : α → β) (node : Node α) :
    (node.map f).leaves = node.leaves.map f := by
  induction node using Node.induction with
  | leaf a => rfl
  | branch kind children ih =>
    rw [map_branch, leaves_branch, leaves_branch, List.flatMap_map, List.map_flatMap]
    exact List.flatMap_congr ih

/-- What a traversal does not change in the leaves, from left to right. -/
theorem map_leaves_traverse {σ β : Type} {f : σ → α → α × σ} {g : α → β}
    (h : ∀ s a, g (f s a).1 = g a) (node : Node α) (s : σ) :
    (node.traverse f s).1.leaves.map g = node.leaves.map g := by
  have hleaf : ∀ s a, Node.leaf (g (f s a).1) = .leaf (g a) := fun s a => congrArg leaf (h s a)
  have hmap : (node.traverse f s).1.map g = node.map g := by
    unfold map
    apply fold_traverse
    exact hleaf
  rw [← leaves_map, hmap, leaves_map]

end Node

end CircuitCode
