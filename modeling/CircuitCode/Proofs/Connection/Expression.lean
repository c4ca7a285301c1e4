import CircuitCode.Connection.Evaluation
import CircuitCode.Proofs.Connection.Splicing
import CircuitCode.Proofs.Expr.Symbols

/-!
# Expressions of trees

A branch that is a literal zero replaces the expression of a whole parallel connection. No
connection becomes such a zero by itself: if no branch of a parallel connection is a leaf that is
one (`Node.Unshorted`), the expression of a tree is made of those of all its leaves, and its
symbols are theirs from left to right.
-/

namespace CircuitCode

/-- The expression for a connection none of whose branches is a literal zero. -/
def Expr.join : ConnectionKind → List Expr → Expr
  | .series, terms => .sum terms
  | .parallel, branches => (Expr.sum (branches.map Expr.recip)).recip

theorem Expr.symbols_join (kind : ConnectionKind) (es : List Expr) :
    (join kind es).symbols = es.flatMap symbols := by
  cases kind with
  | series => rw [join, symbols, symbolsOf_eq_flatMap]
  | parallel =>
    rw [join, symbols_recip, symbols, symbolsOf_eq_flatMap, List.flatMap_map]
    simp only [symbols_recip]

theorem Expr.isZero_join (kind : ConnectionKind) (es : List Expr) :
    (join kind es).isZero = false := by
  cases kind <;> rfl

/-- A connection has its usual expression, unless it is a parallel one with a literal zero. -/
theorem Expr.combine_eq_join {kind : ConnectionKind} {es : List Expr}
    (h : kind = .parallel → es.any isZero = false) : combine kind es = join kind es := by
  cases kind with
  | series => rfl
  | parallel =>
    rw [combine, parallel, h rfl]
    rfl

namespace Node

variable {α : Type} {e : α → Expr}

/-- No branch of a parallel connection is a leaf whose expression is a literal zero. -/
def Unshorted (e : α → Expr) (node : Node α) : Prop :=
  ∀ d ∈ node.connections, d.kind = .parallel → ∀ a, .leaf a ∈ d.children → (e a).isZero = false

theorem unshorted_of_leaves {node : Node α} (h : ∀ a ∈ node.leaves, (e a).isZero = false) :
    node.Unshorted e := by
  intro d hd _ a ha
  apply h a
  apply leaves_subset hd
  exact mem_leaves_branch.mpr ⟨.leaf a, ha, List.mem_singleton.mpr rfl⟩

theorem unshorted_branch {kind : ConnectionKind} {children : List (Node α)} :
    (branch kind children).Unshorted e ↔
      (kind = .parallel → ∀ a, .leaf a ∈ children → (e a).isZero = false) ∧
        ∀ child ∈ children, child.Unshorted e := by
  constructor
  · intro h
    refine ⟨h _ (mem_connections_branch.mpr (.inl rfl)), ?_⟩
    intro child hchild d hd
    exact h d (mem_connections_branch.mpr (.inr ⟨child, hchild, hd⟩))
  · rintro ⟨hbranches, hchildren⟩ d hd
    rcases mem_connections_branch.mp hd with rfl | ⟨child, hchild, hd⟩
    · exact hbranches
    · exact hchildren child hchild d hd

theorem expression_branch (e : α → Expr) (kind : ConnectionKind) (children : List (Node α)) :
    (branch kind children).expression e = .combine kind (children.map (expression e)) :=
  fold_branch

/-- Without a short the expression of a tree is put together from those of its leaves, and it is a
    literal zero only if the tree is a leaf that is one. -/
theorem expression_of_unshorted {node : Node α} (h : node.Unshorted e) :
    node.expression e = node.fold e .join ∧
      ((∀ a, node = .leaf a → (e a).isZero = false) → (node.expression e).isZero = false) := by
  induction node using Node.induction with
  | leaf a => exact ⟨rfl, fun hleaf => hleaf a rfl⟩
  | branch kind children ih =>
    obtain ⟨hbranches, hchildren⟩ := unshorted_branch.mp h
    have hnone : kind = .parallel → (children.map (expression e)).any Expr.isZero = false := by
      intro hkind
      rw [List.any_map, List.any_eq_false]
      intro child hchild
      rw [Function.comp_apply, Bool.not_eq_true]
      apply (ih child hchild (hchildren child hchild)).2
      rintro a rfl
      exact hbranches hkind a hchild
    have hjoin : children.map (expression e) = children.map (fold e .join) :=
      List.map_congr_left fun child hchild => (ih child hchild (hchildren child hchild)).1
    rw [expression_branch, Expr.combine_eq_join hnone, fold_branch, hjoin]
    exact ⟨rfl, fun _ => Expr.isZero_join kind _⟩

/-- The symbols of a tree without a short are those of its leaves from left to right. -/
theorem symbols_expression_of_unshorted {node : Node α} (h : node.Unshorted e) :
    (node.expression e).symbols = node.leaves.flatMap fun a => (e a).symbols := by
  rw [(expression_of_unshorted h).1]
  clear h
  induction node using Node.induction with
  | leaf a => exact (List.flatMap_singleton _ _).symm
  | branch kind children ih =>
    rw [fold_branch, Expr.symbols_join, leaves_branch, List.flatMap_map, List.flatMap_assoc]
    exact List.flatMap_congr ih

/-- A short takes symbols away and brings none. -/
theorem symbols_expression_subset (e : α → Expr) (node : Node α) :
    (node.expression e).symbols ⊆ node.leaves.flatMap fun a => (e a).symbols := by
  induction node using Node.induction with
  | leaf a => simp [expression, fold, leaves]
  | branch kind children ih =>
    rw [expression_branch]
    by_cases hshort : kind = .parallel ∧ (children.map (expression e)).any Expr.isZero = true
    · obtain ⟨rfl, hzero⟩ := hshort
      rw [Expr.combine, Expr.parallel, if_pos hzero, Expr.symbols]
      exact List.nil_subset _
    · have hnone : kind = .parallel → (children.map (expression e)).any Expr.isZero = false := by
        intro hkind
        exact Bool.eq_false_iff.mpr fun hzero => hshort ⟨hkind, hzero⟩
      rw [Expr.combine_eq_join hnone, Expr.symbols_join, List.flatMap_map, leaves_branch,
        List.flatMap_assoc]
      intro name hname
      obtain ⟨child, hchild, hname⟩ := List.mem_flatMap.mp hname
      exact List.mem_flatMap.mpr ⟨child, hchild, ih child hchild hname⟩

end Node

end CircuitCode
