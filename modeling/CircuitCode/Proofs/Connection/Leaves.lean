import Mathlib.Data.List.Forall2
import CircuitCode.Proofs.Connection.Splicing

/-!
# Shapes and leaves

A tree is its shape together with the list of its leaves: trees are equal if both are
(`Node.beq_iff`). A traversal keeps the shape and changes the list of the leaves as `traverseList`
does, so what it does to a tree can be seen on a list.
-/

namespace CircuitCode

variable {α β σ : Type}

/-- Replaces the members of a list from left to right while passing a state along. -/
def traverseList (f : σ → α → α × σ) : List α → σ → List α × σ
  | [], s => ([], s)
  | a :: as, s =>
    let (a', s') := f s a
    let (as', s'') := traverseList f as s'
    (a' :: as', s'')

theorem traverseList_append (f : σ → α → α × σ) (as bs : List α) (s : σ) :
    traverseList f (as ++ bs) s =
      ((traverseList f as s).1 ++ (traverseList f bs (traverseList f as s).2).1,
        (traverseList f bs (traverseList f as s).2).2) := by
  induction as generalizing s with
  | nil => rfl
  | cons a as ih => simp [traverseList, ih]

/-- What holds of every changed member holds of every member of the changed list. -/
theorem forall_mem_traverseList {f : σ → α → α × σ} {p : α → Prop} {as : List α}
    (h : ∀ s, ∀ a ∈ as, p (f s a).1) (s : σ) : ∀ a ∈ (traverseList f as s).1, p a := by
  induction as generalizing s with
  | nil => exact nofun
  | cons a as ih =>
    obtain ⟨hfirst, hothers⟩ : p (f s a).1 ∧ ∀ s, ∀ b ∈ as, p (f s b).1 :=
      ⟨h s a List.mem_cons_self, fun s b hb => h s b (List.mem_cons_of_mem a hb)⟩
    exact List.forall_mem_cons.mpr ⟨hfirst, ih hothers _⟩

/-- Lists are related member by member if their halves are, provided that these are of one
    length. -/
theorem forall₂_append_iff {R : α → β → Prop} {as as' : List α} {bs bs' : List β}
    (hlength : as.length = bs.length) :
    List.Forall₂ R (as ++ as') (bs ++ bs') ↔ List.Forall₂ R as bs ∧ List.Forall₂ R as' bs' := by
  induction as generalizing bs with
  | nil =>
    obtain rfl : bs = [] := List.length_eq_zero_iff.mp hlength.symm
    simp
  | cons a as ih =>
    cases bs with
    | nil => cases hlength
    | cons b bs => simp [ih (Nat.succ.inj hlength), and_assoc]

namespace Node

/-- The tree without what its leaves are. -/
def shape : Node α → Node Unit := map fun _ => ()

theorem shape_branch (kind : ConnectionKind) (children : List (Node α)) :
    (branch kind children).shape = .branch kind (children.map shape) :=
  map_branch _ kind children

theorem shape_traverse (f : σ → α → α × σ) (node : Node α) (s : σ) :
    (node.traverse f s).1.shape = node.shape :=
  map_traverse (fun _ _ => rfl) node s

theorem length_leaves_of_shape_eq {node : Node α} {node' : Node β}
    (h : node.shape = node'.shape) : node.leaves.length = node'.leaves.length := by
  have hleaves := congrArg (fun node => node.leaves.length) h
  simpa [shape, leaves_map] using hleaves

mutual

/-- A tree is determined by its shape and its leaves. -/
theorem eq_of_shape_eq {node node' : Node α} (hshape : node.shape = node'.shape)
    (hleaves : node.leaves = node'.leaves) : node = node' := by
  cases node with
  | leaf a =>
    cases node' with
    | leaf b => exact congrArg leaf (List.singleton_inj.mp hleaves)
    | branch kind children => cases hshape
  | branch kind children =>
    cases node' with
    | leaf b => cases hshape
    | branch kind' children' =>
      rw [shape_branch, shape_branch, branch.injEq] at hshape
      rw [leaves_branch, leaves_branch] at hleaves
      rw [hshape.1, eq_of_shapes_eq hshape.2 hleaves]

theorem eq_of_shapes_eq {nodes nodes' : List (Node α)}
    (hshapes : nodes.map shape = nodes'.map shape)
    (hleaves : nodes.flatMap leaves = nodes'.flatMap leaves) : nodes = nodes' := by
  cases nodes with
  | nil => exact (List.map_eq_nil_iff.mp hshapes.symm).symm
  | cons node nodes =>
    cases nodes' with
    | nil => cases hshapes
    | cons node' nodes' =>
      rw [List.map_cons, List.map_cons, List.cons.injEq] at hshapes
      rw [List.flatMap_cons, List.flatMap_cons] at hleaves
      obtain ⟨hfirst, hothers⟩ :=
        List.append_inj hleaves (length_leaves_of_shape_eq hshapes.1)
      rw [eq_of_shape_eq hshapes.1 hfirst, eq_of_shapes_eq hshapes.2 hothers]

end

mutual

/-- The leaves of a traversed tree are those of the tree, traversed as a list. -/
theorem leaves_traverse (f : σ → α → α × σ) (node : Node α) (s : σ) :
    ((node.traverse f s).1.leaves, (node.traverse f s).2) = traverseList f node.leaves s := by
  cases node with
  | leaf a => rfl
  | branch kind children =>
    have hchildren := leaves_traverseAll f children s
    rw [traverse, leaves_branch, leaves_branch]
    exact hchildren

theorem leaves_traverseAll (f : σ → α → α × σ) (nodes : List (Node α)) (s : σ) :
    ((traverseAll f nodes s).1.flatMap leaves, (traverseAll f nodes s).2) =
      traverseList f (nodes.flatMap leaves) s := by
  cases nodes with
  | nil => rfl
  | cons node nodes =>
    have hnode := leaves_traverse f node s
    have hnodes := leaves_traverseAll f nodes (node.traverse f s).2
    rw [List.flatMap_cons, traverseList_append, ← hnode, ← hnodes]
    rfl

end

theorem forall_leaves_traverse {f : σ → α → α × σ} {p : α → Prop} {node : Node α}
    (h : ∀ s, ∀ a ∈ node.leaves, p (f s a).1) (s : σ) :
    ∀ a ∈ (node.traverse f s).1.leaves, p a := by
  have hleaves := congrArg Prod.fst (leaves_traverse f node s)
  rw [show (node.traverse f s).1.leaves = _ from hleaves]
  exact forall_mem_traverseList h s

theorem filled_traverse {f : σ → α → α × σ} {node : Node α} {s : σ} :
    (node.traverse f s).1.Filled ↔ node.Filled := by
  have hshape := shape_traverse f node s
  rw [← filled_map (fun _ => ()) node, ← filled_map (fun _ => ())]
  exact iff_of_eq (congrArg Filled hshape)

mutual

/-- Trees are equal up to the equality of leaves exactly if they have one shape and equal leaves. -/
theorem beq_iff [BEq α] (node node' : Node α) :
    node.beq node' = true ↔
      node.shape = node'.shape ∧
        List.Forall₂ (fun a b => (a == b) = true) node.leaves node'.leaves := by
  cases node with
  | leaf a =>
    cases node' with
    | leaf b => simp [beq, shape, map, fold, leaves]
    | branch kind children => simp [beq, shape, map, fold]
  | branch kind children =>
    cases node' with
    | leaf b => simp [beq, shape, map, fold]
    | branch kind' children' =>
      have hchildren := beqAll_iff children children'
      rw [beq, Bool.and_eq_true, beq_iff_eq, hchildren, shape_branch, shape_branch, leaves_branch,
        leaves_branch, branch.injEq, and_assoc]

theorem beqAll_iff [BEq α] (nodes nodes' : List (Node α)) :
    beqAll nodes nodes' = true ↔
      nodes.map shape = nodes'.map shape ∧
        List.Forall₂ (fun a b => (a == b) = true) (nodes.flatMap leaves)
          (nodes'.flatMap leaves) := by
  cases nodes with
  | nil => cases nodes' <;> simp [beqAll]
  | cons node nodes =>
    cases nodes' with
    | nil => simp [beqAll]
    | cons node' nodes' =>
      have hnode := beq_iff node node'
      have hnodes := beqAll_iff nodes nodes'
      rw [beqAll, Bool.and_eq_true, hnode, hnodes, List.map_cons, List.map_cons, List.cons.injEq,
        List.flatMap_cons, List.flatMap_cons]
      constructor
      · rintro ⟨⟨hshape, hleaves⟩, hshapes, hothers⟩
        exact ⟨⟨hshape, hshapes⟩, List.rel_append hleaves hothers⟩
      · rintro ⟨⟨hshape, hshapes⟩, hleaves⟩
        obtain ⟨hfirst, hothers⟩ :=
          (forall₂_append_iff (length_leaves_of_shape_eq hshape)).mp hleaves
        exact ⟨⟨hshape, hfirst⟩, hshapes, hothers⟩

end

end Node

end CircuitCode
