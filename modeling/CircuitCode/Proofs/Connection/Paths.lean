import CircuitCode.Proofs.Connection.Tree

/-!
# Paths in a tree

`Node.listed` lists the nodes of a tree that a view shows, with the paths to them, in pre-order: a
connection before its children, and these from left to right. A path stands in the list exactly if
it leads to such a node, and before another exactly if it is smaller in the lexicographic order. The
connections of a tree and the paths that `locate` finds to them are both read off one such list, so
a number means the same connection in both (`Circuit.lookups_agree`).
-/

namespace CircuitCode

variable {α β : Type}

namespace Path

/-- What is listed for a node, as it is listed for a tree in which a path leads to this node. -/
def above (path : Path) (entry : Path × β) : Path × β := (path ++ entry.1, entry.2)

theorem map_above_nil (entries : List (Path × β)) : entries.map (above []) = entries :=
  List.map_id entries

theorem map_above_cons (position : Nat) (path : Path) (entries : List (Path × β)) :
    entries.map (above (position :: path)) = (entries.map (above path)).map (above [position]) := by
  rw [List.map_map]
  rfl

theorem map_snd_above (path : Path) (entries : List (Path × β)) :
    (entries.map (above path)).map Prod.snd = entries.map Prod.snd := by
  rw [List.map_map]
  rfl

theorem append_lt_append_iff (path rest rest' : Path) :
    path ++ rest < path ++ rest' ↔ rest < rest' := by
  induction path with
  | nil => rfl
  | cons position path ih => simp [ih]

/-- What a path leads to does not come before it. -/
theorem not_append_lt (path rest : Path) : ¬ path ++ rest < path := by
  have h := append_lt_append_iff path rest []
  rw [List.append_nil] at h
  rw [h]
  exact List.not_lt_nil rest

end Path

/-- A member of a list stands between those before it and those after it. -/
theorem exists_append_cons_of_getElem? {as : List α} {i : Nat} {a : α} (h : as[i]? = some a) :
    ∃ before after, as = before ++ a :: after ∧ before.length = i := by
  obtain ⟨hlt, rfl⟩ := List.getElem?_eq_some_iff.mp h
  refine ⟨as.take i, as.drop (i + 1), ?_, List.length_take_of_le (Nat.le_of_lt hlt)⟩
  rw [List.getElem_cons_drop, List.take_append_drop]

namespace Node

/-- The node at the end of a path. -/
def get? : Path → Node α → Option (Node α)
  | [], node => some node
  | position :: path, branch _ children => children[position]?.bind (get? path)
  | _ :: _, leaf _ => none

/-- What a view shows of the root of a tree. -/
def listedHere (view : Node α → Option β) (node : Node α) : List (Path × β) :=
  ((view node).map ([], ·)).toList

mutual

/-- The nodes of a tree that a view shows, with the paths to them, in pre-order. -/
def listed (view : Node α → Option β) : Node α → List (Path × β)
  | leaf a => listedHere view (leaf a)
  | branch kind children =>
    listedHere view (branch kind children) ++ listedIn view children 0

/-- As `listed`, for children of which the first has the given position. -/
def listedIn (view : Node α → Option β) : List (Node α) → (position : Nat) → List (Path × β)
  | [], _ => []
  | node :: nodes, position =>
    (node.listed view).map (Path.above [position]) ++ listedIn view nodes (position + 1)

end

variable {view : Node α → Option β}

theorem listedIn_append (nodes nodes' : List (Node α)) (position : Nat) :
    listedIn view (nodes ++ nodes') position =
      listedIn view nodes position ++ listedIn view nodes' (position + nodes.length) := by
  induction nodes generalizing position with
  | nil => rfl
  | cons node nodes ih =>
    rw [List.cons_append, listedIn, listedIn, ih, List.append_assoc, List.length_cons,
      Nat.add_assoc, Nat.add_comm 1]

theorem mem_listedHere {node : Node α} {path : Path} {b : β} :
    (path, b) ∈ listedHere view node ↔ path = [] ∧ view node = some b := by
  cases hview : view node with
  | none => simp [listedHere, hview]
  | some b' => simp [listedHere, hview, eq_comm]

/-- What lies at a position among children has this position before its path. -/
theorem mem_listedIn {nodes : List (Node α)} {position : Nat} {path : Path} {b : β} :
    (path, b) ∈ listedIn view nodes position ↔
      ∃ i child rest, nodes[i]? = some child ∧ path = (position + i) :: rest ∧
        (rest, b) ∈ child.listed view := by
  induction nodes generalizing position with
  | nil => simp [listedIn]
  | cons node nodes ih =>
    have hshift (i : Nat) : position + 1 + i = position + (i + 1) := by omega
    simp only [listedIn, List.mem_append, ih, hshift]
    constructor
    · rintro (hmem | ⟨i, child, rest, hchild, rfl, hmem⟩)
      · obtain ⟨⟨rest, b'⟩, hfirst, heq⟩ := List.mem_map.mp hmem
        cases heq
        exact ⟨0, node, rest, rfl, rfl, hfirst⟩
      · exact ⟨i + 1, child, rest, hchild, rfl, hmem⟩
    · rintro ⟨i, child, rest, hchild, rfl, hmem⟩
      cases i with
      | zero =>
        obtain rfl : node = child := Option.some.inj hchild
        exact .inl (List.mem_map.mpr ⟨(rest, b), hmem, rfl⟩)
      | succ i => exact .inr ⟨i, child, rest, hchild, rfl, hmem⟩

/-- The list has the paths that lead to a node which the view shows. -/
theorem mem_listed {node : Node α} {path : Path} {b : β} :
    (path, b) ∈ node.listed view ↔ (node.get? path).bind view = some b := by
  induction path generalizing node with
  | nil =>
    cases node with
    | leaf a => simp [listed, get?, mem_listedHere]
    | branch kind children => simp [listed, get?, mem_listedHere, mem_listedIn]
  | cons position path ih =>
    cases node with
    | leaf a => simp [listed, get?, mem_listedHere]
    | branch kind children =>
      simp only [listed, get?, List.mem_append, mem_listedHere, reduceCtorEq, false_and, false_or,
        mem_listedIn, Nat.zero_add, List.cons.injEq, Option.bind_assoc]
      rw [Option.bind_eq_some_iff]
      constructor
      · rintro ⟨i, child, rest, hchild, ⟨rfl, rfl⟩, hmem⟩
        exact ⟨child, hchild, ih.mp hmem⟩
      · rintro ⟨child, hchild, hmem⟩
        exact ⟨position, child, path, hchild, ⟨rfl, rfl⟩, ih.mpr hmem⟩

/-- The paths grow from the start of the list to its end. -/
theorem sorted_listed (view : Node α → Option β) (node : Node α) :
    (node.listed view).Pairwise fun a b => a.1 < b.1 := by
  have hhere (node : Node α) : (listedHere view node).Pairwise fun a b => a.1 < b.1 := by
    unfold listedHere
    cases view node with
    | none => exact List.Pairwise.nil
    | some b => exact List.pairwise_singleton _ _
  induction node using Node.induction with
  | leaf a => exact hhere (leaf a)
  | branch kind children ih =>
    have hchildren (position : Nat) :
        (listedIn view children position).Pairwise fun a b => a.1 < b.1 := by
      induction children generalizing position with
      | nil => exact List.Pairwise.nil
      | cons child children ih' =>
        obtain ⟨hchild, hchildren⟩ := List.forall_mem_cons.mp ih
        rw [listedIn, List.pairwise_append, List.pairwise_map]
        refine ⟨hchild.imp (Path.append_lt_append_iff _ _ _).mpr, ih' hchildren _, ?_⟩
        rintro _ hfirst ⟨path, b⟩ hsecond
        obtain ⟨first, -, rfl⟩ := List.mem_map.mp hfirst
        obtain ⟨i, -, rest, -, rfl, -⟩ := mem_listedIn.mp hsecond
        exact List.cons_lt_cons_iff.mpr (.inl (by omega))
    rw [listed, List.pairwise_append]
    refine ⟨hhere _, hchildren 0, ?_⟩
    rintro ⟨path, b⟩ hfirst ⟨path', b'⟩ hsecond
    obtain ⟨rfl, -⟩ := mem_listedHere.mp hfirst
    obtain ⟨i, -, rest, -, rfl, -⟩ := mem_listedIn.mp hsecond
    exact List.nil_lt_cons _ _

mutual

theorem connections_eq (node : Node α) :
    node.connections = (node.listed connection?).map Prod.snd := by
  cases node with
  | leaf a => rfl
  | branch kind children =>
    rw [connections, connectionsIn_eq children 0]
    rfl

theorem connectionsIn_eq (nodes : List (Node α)) (position : Nat) :
    connectionsIn nodes = (listedIn connection? nodes position).map Prod.snd := by
  cases nodes with
  | nil => rfl
  | cons node nodes =>
    rw [connectionsIn, listedIn, List.map_append, Path.map_snd_above, connections_eq node,
      connectionsIn_eq nodes (position + 1)]

end

/-- As many connections are counted as there are. -/
theorem connectionCountIn_eq : ∀ nodes : List (Node α),
    connectionCountIn nodes = (connectionsIn nodes).length
  | [] => rfl
  | leaf _ :: nodes => connectionCountIn_eq nodes
  | branch kind children :: nodes => by
    have hcount : connectionCountIn (branch kind children :: nodes) =
        1 + connectionCountIn children + connectionCountIn nodes := rfl
    rw [hcount, connectionCountIn_eq children, connectionCountIn_eq nodes, connectionsIn,
      connections, List.length_append, List.length_cons, Nat.add_comm 1]

/-- The search goes into a connection exactly if the number stands for one inside it. -/
theorem locateIn_branch (kind : ConnectionKind) (children nodes : List (Node α))
    (position index : Nat) :
    locateIn (branch kind children :: nodes) position index =
      if index = 0 then some [position]
      else if index - 1 < connectionCountIn children then
        (locateIn children 0 (index - 1)).map (position :: ·)
      else locateIn nodes (position + 1) (index - 1 - connectionCountIn children) := rfl

/-- The path that is found among children is the one that is listed under the number. -/
theorem locateIn_eq : ∀ (nodes : List (Node α)) (position index : Nat),
    locateIn nodes position index =
      ((listedIn connection? nodes position)[index]?).map Prod.fst
  | [], _, _ => rfl
  | leaf _ :: nodes, position, index => locateIn_eq nodes (position + 1) index
  | branch kind children :: nodes, position, index => by
    have hlisted : listedIn connection? (branch kind children :: nodes) position =
        ([position], ⟨kind, children⟩) ::
          ((listedIn connection? children 0).map (Path.above [position]) ++
            listedIn connection? nodes (position + 1)) := rfl
    have hlength : ((listedIn connection? children 0).map (Path.above [position])).length =
        connectionCountIn children := by
      rw [connectionCountIn_eq, connectionsIn_eq children 0, List.length_map, List.length_map]
    rw [hlisted, locateIn_branch]
    cases index with
    | zero => rfl
    | succ index =>
      rw [if_neg index.succ_ne_zero, Nat.add_sub_cancel, List.getElem?_cons_succ]
      by_cases hindex : index < connectionCountIn children
      · rw [if_pos hindex, locateIn_eq children, List.getElem?_append_left (hlength ▸ hindex),
          List.getElem?_map, Option.map_map, Option.map_map]
        rfl
      · rw [if_neg hindex, locateIn_eq nodes,
          List.getElem?_append_right (hlength ▸ Nat.le_of_not_lt hindex), hlength]

end Node

namespace Connection

variable {c d : Connection α} {path : Path}

theorem at?_eq (c : Connection α) (path : Path) :
    c.at? path = (c.toNode.get? path).bind Node.connection? := by
  induction path generalizing c with
  | nil => rfl
  | cons position path ih =>
    rw [at?, toNode, Node.get?]
    cases c.children[position]? with
    | none => rfl
    | some child =>
      cases child with
      | leaf a => cases path <;> rfl
      | branch kind children => exact ih ⟨kind, children⟩

/-- The connections inside a connection with the paths to them, in pre-order. -/
def listedNested (c : Connection α) : List (Path × Connection α) :=
  Node.listedIn Node.connection? c.children 0

theorem listed_toNode (c : Connection α) :
    c.toNode.listed Node.connection? = ([], c) :: c.listedNested := rfl

theorem locate_eq (c : Connection α) (index : Nat) :
    c.locate index = (c.listedNested[index]?).map Prod.fst :=
  Node.locateIn_eq c.children 0 index

theorem nested_eq (c : Connection α) : c.nested = c.listedNested.map Prod.snd :=
  Node.connectionsIn_eq c.children 0

theorem connectionCount_eq (c : Connection α) : c.connectionCount = c.nested.length :=
  Node.connectionCountIn_eq c.children

/-- The connections of a tree to which a path of some form leads, with the paths to them, in
    pre-order. -/
structure Lists (c : Connection α) (form : Path → Prop) (entries : List (Path × Connection α)) :
    Prop where
  mem_iff : ∀ path d, (path, d) ∈ entries ↔ form path ∧ c.at? path = some d
  sorted : entries.Pairwise fun a b => a.1 < b.1

theorem lists_listed (c : Connection α) :
    c.Lists (fun _ => True) (c.toNode.listed Node.connection?) where
  mem_iff path d := by rw [Node.mem_listed, at?_eq, true_and]
  sorted := Node.sorted_listed Node.connection? c.toNode

theorem lists_listedNested (c : Connection α) : c.Lists (· ≠ []) c.listedNested := by
  obtain ⟨hmem, hsorted⟩ := c.lists_listed
  rw [listed_toNode] at hmem hsorted
  obtain ⟨hfirst, hrest⟩ := List.pairwise_cons.mp hsorted
  refine ⟨?_, hrest⟩
  intro path d
  constructor
  · intro hd
    refine ⟨?_, ((hmem path d).mp (List.mem_cons_of_mem _ hd)).2⟩
    rintro rfl
    exact List.not_lt_nil _ (hfirst _ hd)
  · rintro ⟨hne, hd⟩
    refine List.mem_of_ne_of_mem ?_ ((hmem path d).mpr ⟨trivial, hd⟩)
    intro heq
    exact hne (Prod.mk.inj heq).1

end Connection

end CircuitCode
