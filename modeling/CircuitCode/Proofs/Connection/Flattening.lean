import CircuitCode.Proofs.Complex.Standard
import CircuitCode.Proofs.Connection.Splicing
import CircuitCode.Proofs.Parsing.Machine

/-!
# Flattening keeps the impedance

When nodes are joined into connections from the leaves up, a connection inside one of its own kind
is dissolved in it. In exact arithmetic this does not change the impedance that series and parallel
connections have by the usual laws (`exists_build_eq_impedance`). It could only do so where a
parallel connection inside another one has branches whose admittances cancel: its impedance is the
inverse of zero, but the branches have a place in the sum of the outer one (`Node.Conducts`).
-/

namespace CircuitCode

open ComplexArithmetic ExactArithmetic

variable {R C α : Type} [ComplexArithmetic R C] [Field C]

/-- The impedance of branches in parallel by the usual law. Where the admittances cancel, it is
    what the arithmetic has for the inverse of zero. -/
noncomputable def parallelLaw (impedances : List C) : C :=
  open Classical in if 0 ∈ impedances then 0 else inv (impedances.map inv).sum

namespace Node

/-- The tree that is made from the leaves up by joining nodes into connections. -/
def build : Node α → Except ConnectionError (Node α) :=
  fold (fun a => .ok (.leaf a)) fun kind built => do
    let children ← built.mapM id
    let connection ← Connection.ofChildren kind children
    return connection.toNode

/-- The impedance of a tree by the usual laws: impedances in series add, and the admittances of
    parallel branches do, unless a branch without impedance shorts them. -/
noncomputable def lawImpedance (leaf : α → C) : Node α → C :=
  fold leaf fun kind impedances =>
    match kind with
    | .series => impedances.sum
    | .parallel => parallelLaw impedances

/-- The admittances of a parallel connection without a short do not cancel. -/
def Conducts (leaf : α → C) : Node α → Prop
  | .branch .parallel branches =>
    (∀ branch ∈ branches, branch.lawImpedance leaf ≠ 0) →
      (branches.map fun branch => inv (branch.lawImpedance leaf)).sum ≠ 0
  | _ => True

/-- No parallel connection that is a branch of another one has admittances that cancel. -/
def BranchesConduct (leaf : α → C) (node : Node α) : Prop :=
  ∀ d ∈ node.connections, d.kind = .parallel → ∀ child ∈ d.children, child.Conducts leaf

theorem branchesConduct_leaf {leaf : α → C} (a : α) : (Node.leaf a).BranchesConduct leaf := by
  intro d hd
  cases hd

theorem branchesConduct_branch {leaf : α → C} {kind : ConnectionKind} {children : List (Node α)} :
    (branch kind children).BranchesConduct leaf ↔
      (kind = .parallel → ∀ child ∈ children, child.Conducts leaf) ∧
        ∀ child ∈ children, child.BranchesConduct leaf := by
  constructor
  · intro h
    refine ⟨h ⟨kind, children⟩ (mem_connections_branch.mpr (.inl rfl)), ?_⟩
    intro child hchild d hd
    exact h d (mem_connections_branch.mpr (.inr ⟨child, hchild, hd⟩))
  · rintro ⟨hown, hchildren⟩ d hd
    rcases mem_connections_branch.mp hd with rfl | ⟨child, hchild, hd⟩
    · exact hown
    · exact hchildren child hchild d hd

/-- Trees whose connections have the nodes that they need are built, and splicing is what happens
    to them. -/
theorem build_eq {node : Node α} (h : node.Filled) : node.build = .ok node.spliced := by
  induction node using Node.induction with
  | leaf a => rfl
  | branch kind children ih =>
    obtain ⟨hcount, hchildren⟩ := filled_branch.mp h
    have hbuilt : (children.map build).mapM id = .ok (children.map spliced) := by
      clear h hcount
      induction children with
      | nil => rfl
      | cons child children ih' =>
        obtain ⟨hchild, hothers⟩ := List.forall_mem_cons.mp hchildren
        obtain ⟨ihchild, ihothers⟩ := List.forall_mem_cons.mp ih
        rw [List.map_cons, List.mapM_cons, id_eq, ihchild hchild, ih' ihothers hothers]
        rfl
    have hjoin : Connection.ofChildren kind (children.map spliced) =
        .ok ⟨kind, (children.map spliced).flatMap (Connection.splice kind)⟩ :=
      Connection.ofChildren_eq_ok_iff.mpr ⟨by rwa [List.length_map], rfl⟩
    rw [build, fold_branch, ← build, hbuilt, spliced_branch]
    simp only [bind, Except.bind, hjoin]
    rfl

omit [Field C] in
theorem impedance_branch {leaf : α → C} (kind : ConnectionKind) (children : List (Node α)) :
    (branch kind children).impedance leaf = combine kind (children.map (impedance leaf)) := by
  rw [impedance, fold_branch]

theorem lawImpedance_branch {leaf : α → C} {children : List (Node α)} (kind : ConnectionKind) :
    (branch kind children).lawImpedance leaf =
      match kind with
      | .series => (children.map (lawImpedance leaf)).sum
      | .parallel => parallelLaw (children.map (lawImpedance leaf)) := by
  rw [lawImpedance, fold_branch]

end Node

/-- Branches count the same in a parallel connection: they short it both or not at all, and
    otherwise their admittances are equal. -/
structure SameBranches (impedances impedances' : List C) : Prop where
  short : (0 : C) ∈ impedances ↔ (0 : C) ∈ impedances'
  admittance : (0 : C) ∉ impedances → (impedances.map inv).sum = (impedances'.map inv).sum

namespace SameBranches

variable {values values' values'' : List C}

theorem refl (values : List C) : SameBranches values values := ⟨Iff.rfl, fun _ => rfl⟩

theorem trans (h : SameBranches values values') (h' : SameBranches values' values'') :
    SameBranches values values'' where
  short := h.short.trans h'.short
  admittance hshort := (h.admittance hshort).trans (h'.admittance (mt h.short.mpr hshort))

theorem append {more more' : List C} (h : SameBranches values values')
    (hmore : SameBranches more more') : SameBranches (values ++ more) (values' ++ more') where
  short := by rw [List.mem_append, List.mem_append, h.short, hmore.short]
  admittance hshort := by
    rw [List.mem_append, not_or] at hshort
    rw [List.map_append, List.map_append, List.sum_append, List.sum_append,
      h.admittance hshort.1, hmore.admittance hshort.2]

theorem flatMap {nodes : List (Node α)} {f : Node α → List C} {g : Node α → C}
    (h : ∀ node ∈ nodes, SameBranches (f node) [g node]) :
    SameBranches (nodes.flatMap f) (nodes.map g) := by
  induction nodes with
  | nil => exact refl _
  | cons node nodes ih =>
    obtain ⟨hnode, hnodes⟩ := List.forall_mem_cons.mp h
    exact hnode.append (ih hnodes)

theorem parallelLaw_eq (h : SameBranches values values') :
    parallelLaw values = parallelLaw values' := by
  unfold parallelLaw
  by_cases hshort : (0 : C) ∈ values
  · rw [if_pos hshort, if_pos (h.short.mp hshort)]
  · rw [if_neg hshort, if_neg (mt h.short.mpr hshort), h.admittance hshort]

end SameBranches

variable [Field R] [LinearOrder R] [Algebra R C] [ExactArithmetic R C]

/-- A short is noticed by its value. -/
theorem parallel_eq (impedances : List C) : parallel impedances = parallelLaw impedances := by
  have hshort : impedances.any isZero = true ↔ (0 : C) ∈ impedances := by
    rw [List.any_eq_true]
    constructor
    · rintro ⟨z, hz, hzero⟩
      rwa [isZero_iff.mp hzero] at hz
    · intro hz
      exact ⟨0, hz, isZero_iff.mpr rfl⟩
  unfold parallel parallelLaw
  by_cases h : (0 : C) ∈ impedances
  · rw [if_pos h, if_pos (hshort.mpr h), zero_eq]
  · rw [if_neg h, if_neg (mt hshort.mp h), sum_eq]

theorem inv_ne_zero_of_ne_zero {z : C} (hz : z ≠ 0) : (inv z : C) ≠ 0 := by
  rw [inv_eq hz]
  exact inv_ne_zero hz

theorem inv_inv_of_ne_zero {z : C} (hz : z ≠ 0) : (inv (inv z) : C) = z := by
  rw [inv_eq (inv_ne_zero_of_ne_zero hz), inv_eq hz, inv_inv]

/-- Branches count the same as the parallel connection of them, if their admittances do not
    cancel. -/
theorem sameBranches_parallelLaw {values : List C}
    (h : (∀ z ∈ values, z ≠ 0) → (values.map inv).sum ≠ 0) :
    SameBranches values [parallelLaw values] := by
  by_cases hshort : (0 : C) ∈ values
  · have hzero : parallelLaw values = 0 := if_pos hshort
    rw [hzero]
    exact ⟨iff_of_true hshort List.mem_cons_self, fun hnot => absurd hshort hnot⟩
  · have hsum := h fun z hz hzero => hshort (hzero ▸ hz)
    have hlaw : parallelLaw values = inv (values.map inv).sum := if_neg hshort
    rw [hlaw]
    refine ⟨iff_of_false hshort ?_, fun _ => ?_⟩
    · rw [List.mem_singleton]
      exact (inv_ne_zero_of_ne_zero hsum).symm
    · rw [List.map_singleton, List.sum_singleton, inv_inv_of_ne_zero hsum]

namespace Node

variable {leaf : α → C}

/-- The children of a node in a series add up to its impedance. -/
theorem sum_splice_series (node : Node α) :
    ((Connection.splice .series node).map (impedance leaf)).sum = node.impedance leaf := by
  cases node with
  | leaf a => exact List.sum_singleton
  | branch kind children =>
    rw [Connection.splice]
    split
    · next hkind =>
      rw [hkind, impedance_branch, combine, sum_eq]
    · exact List.sum_singleton

theorem sum_flatMap_splice_series (nodes : List (Node α)) :
    ((nodes.flatMap (Connection.splice .series)).map (impedance leaf)).sum =
      (nodes.map (impedance leaf)).sum := by
  induction nodes with
  | nil => rfl
  | cons node nodes ih =>
    rw [List.flatMap_cons, List.map_append, List.sum_append, sum_splice_series, ih, List.map_cons,
      List.sum_cons]

/-- Splicing keeps the impedance of a tree, and what a tree contributes to a parallel connection
    counts there the same as the tree itself. The two go together: what is spliced into a parallel
    connection was itself spliced. -/
theorem impedance_spliced {node : Node α} (h : node.BranchesConduct leaf) :
    node.spliced.impedance leaf = node.lawImpedance leaf ∧
      (node.Conducts leaf → SameBranches
        ((Connection.splice .parallel node.spliced).map (impedance leaf))
        [node.lawImpedance leaf]) := by
  induction node using Node.induction with
  | leaf a => exact ⟨rfl, fun _ => .refl _⟩
  | branch kind children ih =>
    obtain ⟨hown, hchildren⟩ := branchesConduct_branch.mp h
    cases kind with
    | series =>
      have hlaw : (branch .series children).spliced.impedance leaf =
          (branch .series children).lawImpedance leaf := by
        rw [spliced_branch, impedance_branch, combine, sum_eq, sum_flatMap_splice_series,
          List.map_map, lawImpedance_branch]
        refine congrArg List.sum (List.map_congr_left fun child hchild => ?_)
        exact (ih child hchild (hchildren child hchild)).1
      refine ⟨hlaw, fun _ => ?_⟩
      rw [← hlaw]
      exact .refl _
    | parallel =>
      have hbranches : SameBranches (((children.map spliced).flatMap
          (Connection.splice .parallel)).map (impedance leaf))
          (children.map (lawImpedance leaf)) := by
        rw [List.map_flatMap, List.flatMap_map]
        exact .flatMap fun child hchild =>
          (ih child hchild (hchildren child hchild)).2 (hown rfl child hchild)
      have hlaw : (branch .parallel children).spliced.impedance leaf =
          (branch .parallel children).lawImpedance leaf := by
        rw [spliced_branch, impedance_branch, combine, parallel_eq, hbranches.parallelLaw_eq,
          lawImpedance_branch]
      refine ⟨hlaw, fun hconducts => ?_⟩
      rw [spliced_branch, Connection.splice, if_pos rfl, lawImpedance_branch]
      refine hbranches.trans (sameBranches_parallelLaw ?_)
      intro hne
      rw [List.map_map]
      exact hconducts fun child hchild => hne _ (List.mem_map_of_mem hchild)

/-- Joining nodes from the leaves up succeeds if every connection has the nodes that it needs, and
    the impedance of what is built is that of the tree by the usual laws, if no parallel connection
    inside another one has admittances that cancel. -/
theorem exists_build_eq_impedance {raw : Node α} (hfilled : raw.Filled)
    (hconduct : raw.BranchesConduct leaf) :
    ∃ built, raw.build = .ok built ∧ built.impedance leaf = raw.lawImpedance leaf :=
  ⟨raw.spliced, build_eq hfilled, (impedance_spliced hconduct).1⟩

/-- A parallel connection with another one and a series of two in it. The leaves are impedances. -/
def nestedBranches : Node ℂ :=
  .branch .parallel [.branch .parallel [.leaf 1, .leaf 5],
    .branch .series [.leaf 3, .branch .series [.leaf 4, .leaf Complex.I]]]

theorem exists_build_eq_impedance_nestedBranches :
    nestedBranches.Filled ∧ nestedBranches.BranchesConduct id ∧
      ∃ built, nestedBranches.build = .ok built ∧
        built.impedance id = nestedBranches.lawImpedance id := by
  have hfilled : nestedBranches.Filled := by
    simp [nestedBranches, filled_branch, filled_leaf, Grammar.leastNodes]
  have hadmittance : (1 : ℂ)⁻¹ + (5 : ℂ)⁻¹ ≠ 0 := by norm_num
  have hconduct : nestedBranches.BranchesConduct id := by
    simpa [nestedBranches, branchesConduct_branch, branchesConduct_leaf, Conducts, lawImpedance,
      fold, inv] using hadmittance
  exact ⟨hfilled, hconduct, exists_build_eq_impedance hfilled hconduct⟩

end Node

end CircuitCode
