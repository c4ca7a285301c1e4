import CircuitCode.Connection.Basic

/-!
# Queries and changes inside a connection

Leaves are numbered from left to right, and the connections inside a connection in pre-order. A
connection is found by its number in two ways: `Connection.nested?` takes it out of the list of
all of them, and `Connection.locate` walks down to it, passing over whole subtrees by counting, and
gives the path, along which `Connection.modifyAt` changes it. A leaf is changed by its number with
`Connection.modifyLeaf`, or along one of the paths of `Connection.leafPaths`.
-/

namespace CircuitCode

variable {α σ : Type}

/-- The positions of the children on the way to a node inside a connection. -/
abbrev Path := List Nat

namespace Node

mutual

/-- The node itself, if it is a connection, and then the connections inside it, in pre-order. -/
def connections : Node α → List (Connection α)
  | leaf _ => []
  | branch kind children => ⟨kind, children⟩ :: connectionsIn children

/-- The connections among nodes and inside them, in pre-order. -/
def connectionsIn : List (Node α) → List (Connection α)
  | [] => []
  | node :: nodes => node.connections ++ connectionsIn nodes

end

mutual

/-- The number of connections inside a node. -/
def connectionCount : Node α → Nat
  | leaf _ => 0
  | branch _ children => connectionCountIn children

/-- The number of connections among nodes and inside them. -/
def connectionCountIn : List (Node α) → Nat
  | [] => 0
  | leaf _ :: nodes => connectionCountIn nodes
  | node :: nodes => 1 + node.connectionCount + connectionCountIn nodes

end

mutual

/-- The path to the connection of the given number inside a node. -/
def locate : Node α → Nat → Option Path
  | leaf _, _ => none
  | branch _ children, index => locateIn children 0 index

/-- As `locate`, among children of which the first has the given position. Number zero is the first
    connection itself, the numbers after it are those inside it, and the rest come later. -/
def locateIn : List (Node α) → (position index : Nat) → Option Path
  | [], _, _ => none
  | leaf _ :: nodes, position, index => locateIn nodes (position + 1) index
  | node :: nodes, position, index =>
    if index = 0 then some [position]
    else
      let remaining := index - 1
      let nested := node.connectionCount
      if remaining < nested then (node.locate remaining).map (position :: ·)
      else locateIn nodes (position + 1) (remaining - nested)

end

mutual

/-- Replaces the leaves from left to right while passing a state along. -/
def traverse (f : σ → α → α × σ) : Node α → σ → Node α × σ
  | leaf a, s =>
    let (a', s') := f s a
    (leaf a', s')
  | branch kind children, s =>
    let (children', s') := traverseAll f children s
    (branch kind children', s')

/-- As `traverse`, for several trees. -/
def traverseAll (f : σ → α → α × σ) : List (Node α) → σ → List (Node α) × σ
  | [], s => ([], s)
  | node :: nodes, s =>
    let (node', s') := node.traverse f s
    let (nodes', s'') := traverseAll f nodes s'
    (node' :: nodes', s'')

end

mutual

/-- The paths to the leaves, from left to right. -/
def leafPaths : Node α → List Path
  | leaf _ => [[]]
  | branch _ children => leafPathsIn children 0

/-- As `leafPaths`, for children of which the first has the given position. -/
def leafPathsIn : List (Node α) → (position : Nat) → List Path
  | [], _ => []
  | node :: nodes, position =>
    node.leafPaths.map (position :: ·) ++ leafPathsIn nodes (position + 1)

end

/-- Changes the leaf at the end of a path. A path that leads to no leaf changes nothing. -/
def modifyLeafAt (f : α → α) : Path → Node α → Node α
  | [], leaf a => leaf (f a)
  | position :: path, branch kind children =>
    branch kind (children.modify position (modifyLeafAt f path))
  | _, node => node

end Node

namespace Connection

/-- The leaf with the given number. -/
def leaf? (c : Connection α) (index : Nat) : Option α := c.leaves[index]?

/-- All connections inside a connection, in pre-order. -/
def nested (c : Connection α) : List (Connection α) := Node.connectionsIn c.children

/-- The connections among the children of a connection. -/
def childConnections (c : Connection α) : List (Connection α) :=
  c.children.filterMap Node.connection?

/-- The connection of the given number inside a connection. -/
def nested? (c : Connection α) (index : Nat) : Option (Connection α) := c.nested[index]?

/-- The number of connections inside a connection. -/
def connectionCount (c : Connection α) : Nat := Node.connectionCountIn c.children

/-- The path to the connection of the given number inside a connection. -/
def locate (c : Connection α) (index : Nat) : Option Path := Node.locateIn c.children 0 index

/-- The connection at the end of a path. -/
def at? (c : Connection α) : Path → Option (Connection α)
  | [] => some c
  | position :: path =>
    match c.children[position]? with
    | some (.branch kind children) => at? ⟨kind, children⟩ path
    | _ => none

/-- Changes the connection at the end of a path. A path that leads nowhere changes nothing. -/
def modifyAt (f : Connection α → Connection α) (c : Connection α) : Path → Connection α
  | [] => f c
  | position :: path =>
    match c.children[position]? with
    | some (.branch kind children) =>
      { c with children := c.children.set position (modifyAt f ⟨kind, children⟩ path).toNode }
    | _ => c

/-- Replaces the leaves from left to right while passing a state along. -/
def traverse (f : σ → α → α × σ) (c : Connection α) (s : σ) : Connection α × σ :=
  let (children, s') := Node.traverseAll f c.children s
  (⟨c.kind, children⟩, s')

/-- Changes the leaf of the given number. A number that is too large changes nothing. -/
def modifyLeaf (c : Connection α) (index : Nat) (f : α → α) : Connection α :=
  (c.traverse (fun i a => (if i = index then f a else a, i + 1)) 0).1

/-- The paths to the leaves, from left to right. -/
def leafPaths (c : Connection α) : List Path := Node.leafPathsIn c.children 0

/-- Changes the leaf at the end of a path. A path that leads to no leaf changes nothing. -/
def modifyLeafAt (f : α → α) (c : Connection α) : Path → Connection α
  | [] => c
  | position :: path =>
    { c with children := c.children.modify position (Node.modifyLeafAt f path) }

end Connection

end CircuitCode
