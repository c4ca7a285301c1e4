import CircuitCode.Connection.Query

/-!
# Trees of connections

Induction on trees, and the connections and leaves of a tree from those of its children. In an
alternating tree no connection has a child of its own kind; splicing makes trees of that form.
-/

namespace CircuitCode

namespace Node

variable {α β : Type}

/-- Induction on a tree: what holds of leaves, and of a connection if it holds of its children,
    holds of all trees. -/
@[elab_as_elim]
theorem induction {motive : Node α → Prop} (leaf : ∀ a, motive (.leaf a))
    (branch : ∀ kind children, (∀ child ∈ children, motive child) →
      motive (.branch kind children)) : ∀ node, motive node
  | .leaf a => leaf a
  | .branch kind children => branch kind children fun child _ => induction leaf branch child

theorem fold_branch {leaf : α → β} {branch : ConnectionKind → List β → β} {kind : ConnectionKind}
    {children : List (Node α)} :
    fold leaf branch (.branch kind children) = branch kind (children.map (fold leaf branch)) := by
  rw [fold, foldAll_eq_map]

theorem mem_leaves_branch {kind : ConnectionKind} {children : List (Node α)} {a : α} :
    a ∈ (branch kind children).leaves ↔ ∃ child ∈ children, a ∈ child.leaves := by
  rw [leaves, fold_branch, List.mem_flatten, ← leaves]
  constructor
  · rintro ⟨_, hmem, ha⟩
    obtain ⟨child, hchild, rfl⟩ := List.mem_map.mp hmem
    exact ⟨child, hchild, ha⟩
  · rintro ⟨child, hchild, ha⟩
    exact ⟨_, List.mem_map_of_mem hchild, ha⟩

theorem mem_connectionsIn {nodes : List (Node α)} {c : Connection α} :
    c ∈ connectionsIn nodes ↔ ∃ node ∈ nodes, c ∈ node.connections := by
  induction nodes with
  | nil => simp [connectionsIn]
  | cons node nodes ih => simp [connectionsIn, ih]

theorem mem_connections_branch {kind : ConnectionKind} {children : List (Node α)}
    {c : Connection α} :
    c ∈ (branch kind children).connections ↔
      c = ⟨kind, children⟩ ∨ ∃ child ∈ children, c ∈ child.connections := by
  rw [connections, List.mem_cons, mem_connectionsIn]

/-- The connections inside a connection of a tree are among those of the tree. -/
theorem connections_subset {node : Node α} {d : Connection α} (hd : d ∈ node.connections) :
    d.toNode.connections ⊆ node.connections := by
  induction node using Node.induction with
  | leaf a => cases hd
  | branch kind children ih =>
    rcases mem_connections_branch.mp hd with rfl | ⟨child, hchild, hd⟩
    · exact List.Subset.refl _
    · intro d' hd'
      exact mem_connections_branch.mpr (.inr ⟨child, hchild, ih child hchild hd hd'⟩)

theorem leaves_subset {node : Node α} {d : Connection α} (hd : d ∈ node.connections) :
    d.leaves ⊆ node.leaves := by
  induction node using Node.induction with
  | leaf a => cases hd
  | branch kind children ih =>
    rcases mem_connections_branch.mp hd with rfl | ⟨child, hchild, hd⟩
    · exact List.Subset.refl _
    · intro a ha
      exact mem_leaves_branch.mpr ⟨child, hchild, ih child hchild hd ha⟩

mutual

/-- A fold that does not see what a traversal changes in the leaves. -/
theorem fold_traverse {σ : Type} {f : σ → α → α × σ} {leaf : α → β}
    {branch : ConnectionKind → List β → β} (h : ∀ s a, leaf (f s a).1 = leaf a) (node : Node α)
    (s : σ) : fold leaf branch (node.traverse f s).1 = fold leaf branch node := by
  cases node with
  | leaf a => exact h s a
  | branch kind children =>
    have hall : foldAll leaf branch (traverseAll f children s).1 = foldAll leaf branch children :=
      foldAll_traverseAll h children s
    rw [foldAll_eq_map, foldAll_eq_map] at hall
    rw [traverse, fold_branch, fold_branch, hall]

theorem foldAll_traverseAll {σ : Type} {f : σ → α → α × σ} {leaf : α → β}
    {branch : ConnectionKind → List β → β} (h : ∀ s a, leaf (f s a).1 = leaf a)
    (nodes : List (Node α)) (s : σ) :
    foldAll leaf branch (traverseAll f nodes s).1 = foldAll leaf branch nodes := by
  cases nodes with
  | nil => rfl
  | cons node nodes =>
    rw [traverseAll, foldAll, foldAll, fold_traverse h node s, foldAll_traverseAll h nodes _]

end

theorem map_branch (f : α → β) (kind : ConnectionKind) (children : List (Node α)) :
    (branch kind children).map f = .branch kind (children.map (map f)) := by
  rw [map, fold_branch, ← map]

theorem fold_map {γ : Type} {f : α → β} {leaf : β → γ} {branch : ConnectionKind → List γ → γ}
    (node : Node α) :
    (node.map f).fold leaf branch = node.fold (fun a => leaf (f a)) branch := by
  induction node using Node.induction with
  | leaf a => rfl
  | branch kind children ih =>
    rw [map_branch, fold_branch, fold_branch, List.map_map]
    exact congrArg _ (List.map_congr_left ih)

theorem map_map {γ : Type} (f : α → β) (g : β → γ) (node : Node α) :
    (node.map f).map g = node.map fun a => g (f a) :=
  fold_map node

/-- A traversal that keeps what a function sees of the leaves keeps what it sees of the tree. -/
theorem map_traverse {σ : Type} {f : σ → α → α × σ} {g : α → β} (h : ∀ s a, g (f s a).1 = g a)
    (node : Node α) (s : σ) : (node.traverse f s).1.map g = node.map g := by
  apply fold_traverse
  intro s a
  rw [h]

theorem fold_congr {leaf leaf' : α → β} {branch : ConnectionKind → List β → β} {node : Node α}
    (h : ∀ a ∈ node.leaves, leaf a = leaf' a) : node.fold leaf branch = node.fold leaf' branch := by
  induction node using Node.induction with
  | leaf a => exact h a (List.mem_singleton.mpr rfl)
  | branch kind children ih =>
    rw [fold_branch, fold_branch]
    refine congrArg _ (List.map_congr_left fun child hchild => ?_)
    exact ih child hchild fun a ha => h a (mem_leaves_branch.mpr ⟨child, hchild, ha⟩)

/-- The kind of the connection that a node is, if it is not a leaf. -/
def kind? : Node α → Option ConnectionKind
  | leaf _ => none
  | branch kind _ => some kind

/-- No connection has a child of its own kind. -/
def Alternating (node : Node α) : Prop :=
  ∀ d ∈ node.connections, ∀ child ∈ d.children, child.kind? ≠ some d.kind

theorem alternating_leaf (a : α) : (leaf a).Alternating := by
  intro d hd
  cases hd

theorem Alternating.of_mem {node : Node α} (h : node.Alternating) {d : Connection α}
    (hd : d ∈ node.connections) : d.toNode.Alternating :=
  fun d' hd' => h d' (connections_subset hd hd')

theorem alternating_branch {kind : ConnectionKind} {children : List (Node α)} :
    (branch kind children).Alternating ↔
      ∀ child ∈ children, child.kind? ≠ some kind ∧ child.Alternating := by
  constructor
  · intro h child hchild
    refine ⟨h _ (mem_connections_branch.mpr (.inl rfl)) child hchild, fun d hd => ?_⟩
    exact h d (mem_connections_branch.mpr (.inr ⟨child, hchild, hd⟩))
  · intro h d hd
    rcases mem_connections_branch.mp hd with rfl | ⟨child, hchild, hd⟩
    · exact fun child hchild => (h child hchild).1
    · exact (h child hchild).2 d hd

theorem kind?_map (f : α → β) (node : Node α) : (node.map f).kind? = node.kind? := by
  cases node <;> rfl

/-- Whether a tree alternates does not depend on its leaves. -/
theorem alternating_map (f : α → β) (node : Node α) :
    (node.map f).Alternating ↔ node.Alternating := by
  induction node using Node.induction with
  | leaf a => exact ⟨fun _ => alternating_leaf a, fun _ => alternating_leaf (f a)⟩
  | branch kind children ih =>
    rw [map_branch, alternating_branch, alternating_branch, List.forall_mem_map]
    refine forall_congr' fun child => forall_congr' fun hchild => and_congr ?_ (ih child hchild)
    rw [kind?_map]

theorem alternating_traverse {σ : Type} {f : σ → α → α × σ} {node : Node α} {s : σ} :
    (node.traverse f s).1.Alternating ↔ node.Alternating := by
  have hshape : (node.traverse f s).1.map (fun _ => ()) = node.map fun _ => () :=
    fold_traverse (fun _ _ => rfl) node s
  rw [← alternating_map fun _ => (), hshape, alternating_map]

/-- What is spliced out of alternating nodes alternates, and is of another kind. -/
theorem alternating_of_mem_splice {kind : ConnectionKind} {nodes : List (Node α)}
    (h : ∀ node ∈ nodes, node.Alternating) :
    ∀ child ∈ nodes.flatMap (Connection.splice kind),
      child.kind? ≠ some kind ∧ child.Alternating := by
  intro child hchild
  obtain ⟨node, hnode, hchild⟩ := List.mem_flatMap.mp hchild
  have hnode := h node hnode
  cases node with
  | leaf a =>
    obtain rfl := List.mem_singleton.mp hchild
    exact ⟨nofun, hnode⟩
  | branch inner children =>
    rw [Connection.splice] at hchild
    by_cases hkind : inner = kind
    · rw [if_pos hkind] at hchild
      rw [← hkind]
      exact alternating_branch.mp hnode child hchild
    · rw [if_neg hkind] at hchild
      obtain rfl := List.mem_singleton.mp hchild
      exact ⟨fun h => hkind (Option.some.inj h), hnode⟩

end Node

end CircuitCode
