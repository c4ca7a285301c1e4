import CircuitCode.Proofs.Connection.Leaves
import CircuitCode.Proofs.Connection.Paths

/-!
# Changes inside a tree

The leaves below a node stand together among the leaves of the tree, after those whose paths are
smaller than the path to the node (`Node.leavesBefore`). So a change of the k-th leaf inside a node
is the change of one leaf of the tree, whether the node is a connection or the leaf itself
(`Node.replaceAt_modifyLeaf`).
-/

namespace CircuitCode

variable {α : Type}

theorem modify_append_of_lt {as bs : List α} {f : α → α} {i : Nat} (h : i < as.length) :
    (as ++ bs).modify i f = as.modify i f ++ bs := by
  rw [List.modify_eq_take_cons_drop (by rw [List.length_append]; omega),
    List.modify_eq_take_cons_drop h, List.take_append_of_le_length (Nat.le_of_lt h),
    List.getElem_append_left h, List.drop_append_of_le_length h]
  simp

theorem modify_append_length_add (as bs : List α) (f : α → α) (i : Nat) :
    (as ++ bs).modify (as.length + i) f = as ++ bs.modify i f := by
  induction as with
  | nil => simp
  | cons a as ih => simp [Nat.add_right_comm, ih]

theorem modify_append_cons (before after : List α) (a : α) (f : α → α) :
    (before ++ a :: after).modify before.length f = before ++ f a :: after :=
  modify_append_length_add before (a :: after) f 0

/-- A pass that counts the members of a list and changes the one of a given number. -/
theorem traverseList_counting (f : α → α) (index start : Nat) (as : List α) :
    traverseList (fun i a => (if i = index then f a else a, i + 1)) as start =
      (as.mapIdx fun i a => if start + i = index then f a else a, start + as.length) := by
  induction as generalizing start with
  | nil => rfl
  | cons a as ih =>
    have hshift (i : Nat) : start + 1 + i = start + (i + 1) := by omega
    simp only [traverseList, ih, List.mapIdx_cons, Nat.add_zero, List.length_cons, hshift]

namespace Node

variable {node part new : Node α} {path : Path}

/-- The leaf that a node is, if it is not a connection. -/
def leaf? : Node α → Option α
  | leaf a => some a
  | branch _ _ => none

mutual

theorem leaves_eq (node : Node α) : node.leaves = (node.listed leaf?).map Prod.snd := by
  cases node with
  | leaf a => rfl
  | branch kind children =>
    rw [leaves_branch, flatMap_leaves_eq children 0]
    rfl

theorem flatMap_leaves_eq (nodes : List (Node α)) (position : Nat) :
    nodes.flatMap leaves = (listedIn leaf? nodes position).map Prod.snd := by
  cases nodes with
  | nil => rfl
  | cons node nodes =>
    rw [List.flatMap_cons, listedIn, List.map_append, Path.map_snd_above, leaves_eq node,
      flatMap_leaves_eq nodes (position + 1)]

end

mutual

theorem leafPaths_eq (node : Node α) : node.leafPaths = (node.listed leaf?).map Prod.fst := by
  cases node with
  | leaf a => rfl
  | branch kind children => exact leafPathsIn_eq children 0

theorem leafPathsIn_eq (nodes : List (Node α)) (position : Nat) :
    leafPathsIn nodes position = (listedIn leaf? nodes position).map Prod.fst := by
  cases nodes with
  | nil => rfl
  | cons node nodes =>
    rw [leafPathsIn, listedIn, List.map_append, leafPaths_eq node,
      leafPathsIn_eq nodes (position + 1), List.map_map, List.map_map]
    rfl

end

/-- The number of leaves to the left of where a path leads. -/
def leavesBefore (node : Node α) (path : Path) : Nat := node.leafPaths.countP (· < path)

/-- Puts a node in the place to which a path leads. -/
def replaceAt (new : Node α) : Path → Node α → Node α
  | [], _ => new
  | position :: path, branch kind children =>
    branch kind (children.modify position (replaceAt new path))
  | _ :: _, leaf a => leaf a

theorem shape_replaceAt (h : node.get? path = some part) (hshape : new.shape = part.shape) :
    (replaceAt new path node).shape = node.shape := by
  induction path generalizing node with
  | nil =>
    obtain rfl : node = part := Option.some.inj h
    exact hshape
  | cons position path ih =>
    cases node with
    | leaf a => cases h
    | branch kind children =>
      obtain ⟨child, hchild, hpart⟩ := Option.bind_eq_some_iff.mp h
      obtain ⟨before, after, rfl, rfl⟩ := exists_append_cons_of_getElem? hchild
      rw [replaceAt, modify_append_cons, shape_branch, shape_branch, List.map_append,
        List.map_append, List.map_cons, List.map_cons, ih hpart]

theorem listed_leaf?_branch (kind : ConnectionKind) (before after : List (Node α))
    (child : Node α) :
    (branch kind (before ++ child :: after)).listed leaf? =
      listedIn leaf? before 0 ++ ((child.listed leaf?).map (Path.above [before.length]) ++
        listedIn leaf? after (before.length + 1)) := by
  rw [listed, listedIn_append, listedIn, Nat.zero_add]
  rfl

/-- The leaves below the end of a path stand together, and those before them are those with smaller
    paths. What is put there comes in their place. -/
theorem exists_listed_eq (h : node.get? path = some part) :
    ∃ left right, (∀ entry ∈ left, entry.1 < path) ∧ (∀ entry ∈ right, ¬ entry.1 < path) ∧
      node.listed leaf? = left ++ ((part.listed leaf?).map (Path.above path) ++ right) ∧
      ∀ new, (replaceAt new path node).listed leaf? =
        left ++ ((new.listed leaf?).map (Path.above path) ++ right) := by
  induction path generalizing node with
  | nil =>
    obtain rfl : node = part := Option.some.inj h
    exact ⟨[], [], by simp, by simp, by simp [Path.map_above_nil],
      fun new => by simp [Path.map_above_nil, replaceAt]⟩
  | cons position path ih =>
    cases node with
    | leaf a => cases h
    | branch kind children =>
      obtain ⟨child, hchild, hpart⟩ := Option.bind_eq_some_iff.mp h
      obtain ⟨before, after, rfl, rfl⟩ := exists_append_cons_of_getElem? hchild
      obtain ⟨left, right, hleft, hright, hlisted, hreplaced⟩ := ih hpart
      refine ⟨listedIn leaf? before 0 ++ left.map (Path.above [before.length]),
        right.map (Path.above [before.length]) ++ listedIn leaf? after (before.length + 1),
        ?_, ?_, ?_, ?_⟩
      · rw [List.forall_mem_append, List.forall_mem_map]
        refine ⟨?_, fun entry hentry =>
          (Path.append_lt_append_iff _ _ _).mpr (hleft entry hentry)⟩
        rintro ⟨path', a⟩ hentry
        obtain ⟨i, child', rest, hchild', rfl, -⟩ := mem_listedIn.mp hentry
        obtain ⟨hlt, -⟩ := List.getElem?_eq_some_iff.mp hchild'
        exact List.cons_lt_cons_iff.mpr (.inl (by omega))
      · rw [List.forall_mem_append, List.forall_mem_map]
        refine ⟨fun entry hentry hlt =>
          hright entry hentry ((Path.append_lt_append_iff _ _ _).mp hlt), ?_⟩
        rintro ⟨path', a⟩ hentry hlt
        obtain ⟨i, -, rest, -, rfl, -⟩ := mem_listedIn.mp hentry
        rcases List.cons_lt_cons_iff.mp hlt with hlt | ⟨heq, -⟩ <;> omega
      · rw [listed_leaf?_branch, hlisted, Path.map_above_cons _ path]
        simp only [List.map_append, List.append_assoc]
      · intro new
        rw [replaceAt, modify_append_cons, listed_leaf?_branch, hreplaced,
          Path.map_above_cons _ path]
        simp only [List.map_append, List.append_assoc]

/-- The leaves below the end of a path, as a segment of all leaves. -/
theorem exists_leaves_eq (h : node.get? path = some part) :
    ∃ left right, left.length = node.leavesBefore path ∧
      node.leaves = left ++ (part.leaves ++ right) ∧
      ∀ new, (replaceAt new path node).leaves = left ++ (new.leaves ++ right) := by
  obtain ⟨left, right, hleft, hright, hlisted, hreplaced⟩ := exists_listed_eq h
  refine ⟨left.map Prod.snd, right.map Prod.snd, ?_, ?_, ?_⟩
  · have hinside : ∀ entry ∈ (part.listed leaf?).map (Path.above path), ¬ entry.1 < path :=
      List.forall_mem_map.mpr fun entry _ => Path.not_append_lt path entry.1
    rw [leavesBefore, leafPaths_eq, List.countP_map, hlisted, List.countP_append,
      List.countP_append, List.countP_eq_length.mpr (by simpa using hleft),
      List.countP_eq_zero.mpr (by simpa using hinside),
      List.countP_eq_zero.mpr (by simpa using hright), List.length_map]
    rfl
  · rw [leaves_eq, hlisted, List.map_append, List.map_append, Path.map_snd_above, ← leaves_eq]
  · intro new
    rw [leaves_eq, hreplaced, List.map_append, List.map_append, Path.map_snd_above, ← leaves_eq]

/-- Changes the leaf of the given number. -/
def modifyLeaf (node : Node α) (index : Nat) (f : α → α) : Node α :=
  (node.traverse (fun i a => (if i = index then f a else a, i + 1)) 0).1

theorem leaves_modifyLeaf (node : Node α) (index : Nat) (f : α → α) :
    (node.modifyLeaf index f).leaves = node.leaves.modify index f := by
  have hleaves := congrArg Prod.fst (leaves_traverse
    (fun i a => (if i = index then f a else a, i + 1)) node 0)
  rw [traverseList_counting] at hleaves
  refine hleaves.trans (List.ext_getElem? fun i => ?_)
  rw [List.getElem?_mapIdx, List.getElem?_modify]
  simp only [Nat.zero_add, eq_comm]
  rfl

theorem shape_modifyLeaf (node : Node α) (index : Nat) (f : α → α) :
    (node.modifyLeaf index f).shape = node.shape :=
  shape_traverse _ node 0

/-- A change inside a node is a change of the leaf of the tree that is there. -/
theorem replaceAt_modifyLeaf (h : node.get? path = some part) {index : Nat}
    (hindex : index < part.leaves.length) (f : α → α) :
    replaceAt (part.modifyLeaf index f) path node =
      node.modifyLeaf (node.leavesBefore path + index) f := by
  obtain ⟨left, right, hlength, hleaves, hreplaced⟩ := exists_leaves_eq h
  apply eq_of_shape_eq
  · rw [shape_replaceAt h (part.shape_modifyLeaf index f), shape_modifyLeaf]
  · rw [hreplaced, leaves_modifyLeaf, leaves_modifyLeaf, hleaves, ← hlength,
      modify_append_length_add, modify_append_of_lt hindex]

theorem sorted_leafPaths (node : Node α) : node.leafPaths.Pairwise (· < ·) := by
  rw [leafPaths_eq, List.pairwise_map]
  exact sorted_listed leaf? node

/-- Each of the paths leads to the leaf that has the same number. -/
theorem map_get?_leafPaths (node : Node α) :
    node.leafPaths.map (fun path => node.get? path) = node.leaves.map fun a => some (.leaf a) := by
  rw [leafPaths_eq, leaves_eq, List.map_map, List.map_map]
  refine List.map_congr_left ?_
  rintro ⟨path, a⟩ hentry
  obtain ⟨part, hpart, ha⟩ := Option.bind_eq_some_iff.mp (mem_listed.mp hentry)
  cases part with
  | leaf b =>
    obtain rfl : b = a := Option.some.inj ha
    exact hpart
  | branch kind children => cases ha

/-- As many leaves come before a leaf as its number says. -/
theorem leavesBefore_of_getElem? {index : Nat} (h : node.leafPaths[index]? = some path) :
    node.leavesBefore path = index := by
  have hsorted := node.sorted_leafPaths
  obtain ⟨before, after, hpaths, rfl⟩ := exists_append_cons_of_getElem? h
  rw [hpaths, List.pairwise_append, List.pairwise_cons] at hsorted
  obtain ⟨-, ⟨hafter, -⟩, hbefore⟩ := hsorted
  have hlater : ∀ path' ∈ path :: after, ¬ path' < path := by
    refine List.forall_mem_cons.mpr ⟨List.lt_irrefl path, fun path' hpath' => ?_⟩
    exact List.lt_asymm (hafter path' hpath')
  have hearlier : ∀ path' ∈ before, path' < path :=
    fun path' hpath' => hbefore path' hpath' path List.mem_cons_self
  rw [leavesBefore, hpaths, List.countP_append, List.countP_eq_length.mpr (by simpa using hearlier),
    List.countP_eq_zero.mpr (by simpa using hlater), Nat.add_zero]

theorem modifyLeafAt_eq_replaceAt (f : α → α) {a : α} (h : node.get? path = some (leaf a)) :
    node.modifyLeafAt f path = replaceAt (leaf (f a)) path node := by
  induction path generalizing node with
  | nil =>
    obtain rfl : node = leaf a := Option.some.inj h
    rfl
  | cons position path ih =>
    cases node with
    | leaf b => cases h
    | branch kind children =>
      obtain ⟨child, hchild, hleaf⟩ := Option.bind_eq_some_iff.mp h
      obtain ⟨before, after, rfl, rfl⟩ := exists_append_cons_of_getElem? hchild
      rw [modifyLeafAt, replaceAt, modify_append_cons, modify_append_cons, ih hleaf]

/-- A change along the path to a leaf is the change of the leaf of that number. -/
theorem modifyLeafAt_eq_modifyLeaf {index : Nat} (h : node.leafPaths[index]? = some path)
    (f : α → α) : node.modifyLeafAt f path = node.modifyLeaf index f := by
  have hmem := congrArg (fun paths => paths[index]?) node.map_get?_leafPaths
  simp only [List.getElem?_map, h, Option.map_some] at hmem
  obtain ⟨a, -, ha⟩ := Option.map_eq_some_iff.mp hmem.symm
  rw [modifyLeafAt_eq_replaceAt f ha.symm]
  exact (replaceAt_modifyLeaf ha.symm (Nat.lt_succ_self 0) f).trans
    (by rw [leavesBefore_of_getElem? h, Nat.add_zero])

end Node

namespace Connection

variable {c d : Connection α} {path : Path}

/-- A change at the end of a path puts the changed connection there. -/
theorem toNode_modifyAt (f : Connection α → Connection α) (h : c.at? path = some d) :
    (c.modifyAt f path).toNode = Node.replaceAt (f d).toNode path c.toNode := by
  induction path generalizing c with
  | nil =>
    obtain rfl : c = d := Option.some.inj h
    rfl
  | cons position path ih =>
    obtain ⟨outer, nodes⟩ := c
    rw [at?] at h
    rw [modifyAt]
    cases hchild : nodes[position]? with
    | none => simp [hchild] at h
    | some child =>
      cases child with
      | leaf a => simp [hchild] at h
      | branch kind children =>
        have hd : Connection.at? ⟨kind, children⟩ path = some d := by simpa [hchild] using h
        have hinner : (modifyAt f ⟨kind, children⟩ path).toNode =
            Node.replaceAt (f d).toNode path (.branch kind children) := ih hd
        obtain ⟨before, after, rfl, rfl⟩ := exists_append_cons_of_getElem? hchild
        have hreplaced : Node.replaceAt (f d).toNode (before.length :: path)
            (toNode ⟨outer, before ++ .branch kind children :: after⟩) =
              .branch outer (before ++ (modifyAt f ⟨kind, children⟩ path).toNode :: after) := by
          rw [hinner]
          exact congrArg (Node.branch outer) (modify_append_cons before after _ _)
        rw [hreplaced]
        simp [toNode]

theorem toNode_modifyLeafAt (f : α → α) (c : Connection α) (path : Path) :
    (c.modifyLeafAt f path).toNode = c.toNode.modifyLeafAt f path := by
  cases path <;> rfl

end Connection

end CircuitCode
