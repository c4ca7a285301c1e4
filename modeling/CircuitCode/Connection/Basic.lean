/-!
# Series and parallel connections

Trees whose leaves are elements, or whatever stands for them, and whose inner nodes are series and
parallel connections. `Connection.ofChildren` joins nodes into a connection: it checks their
number and splices in the children of a child connection of the same kind. `Node.fold` is the
recursion that texts, impedances and expressions of trees are instances of.
-/

namespace CircuitCode

/-- How the branches of a connection combine. -/
inductive ConnectionKind where
  /-- Impedances add. -/
  | series
  /-- Admittances add. -/
  | parallel
deriving DecidableEq, Repr, Inhabited

def ConnectionKind.name : ConnectionKind → String
  | series => "series"
  | parallel => "parallel"

/-- A leaf or a connection of nodes. -/
inductive Node (α : Type) where
  | leaf (a : α)
  | branch (kind : ConnectionKind) (children : List (Node α))

/-- A connection of nodes, that is, a node that is not a leaf. -/
structure Connection (α : Type) where
  kind : ConnectionKind
  children : List (Node α)

/-- Why nodes cannot be joined. -/
inductive ConnectionError where
  | empty (kind : ConnectionKind)
  | insufficientBranches (count : Nat)
deriving DecidableEq, Repr

def ConnectionError.message : ConnectionError → String
  | empty kind => kind.name ++ " connection contains no elements"
  | insufficientBranches count =>
    "parallel connection has " ++ toString count ++ " branch(es), expected at least 2"

variable {α β : Type}

namespace Node

mutual

/-- Replaces each leaf and each connection by a value, from the leaves up. -/
def fold (leaf : α → β) (branch : ConnectionKind → List β → β) : Node α → β
  | .leaf a => leaf a
  | .branch kind children => branch kind (foldAll leaf branch children)

/-- The values of several nodes. -/
def foldAll (leaf : α → β) (branch : ConnectionKind → List β → β) : List (Node α) → List β
  | [] => []
  | node :: nodes => node.fold leaf branch :: foldAll leaf branch nodes

end

theorem foldAll_eq_map (leaf : α → β) (branch : ConnectionKind → List β → β)
    (nodes : List (Node α)) : foldAll leaf branch nodes = nodes.map (fold leaf branch) := by
  induction nodes with
  | nil => rfl
  | cons node nodes ih => simp [foldAll, ih]

/-- The connection that a node is, if it is not a leaf. -/
def connection? : Node α → Option (Connection α)
  | leaf _ => none
  | branch kind children => some ⟨kind, children⟩

/-- The leaves from left to right. -/
def leaves : Node α → List α := fold (fun a => [a]) fun _ => List.flatten

/-- The tree with each leaf replaced. -/
def map (f : α → β) : Node α → Node β := fold (fun a => leaf (f a)) branch

mutual

/-- Structural equality, up to the given equality of leaves. -/
def beq [BEq α] : Node α → Node α → Bool
  | leaf a, leaf b => a == b
  | branch kind children, branch kind' children' =>
    kind == kind' && beqAll children children'
  | _, _ => false

def beqAll [BEq α] : List (Node α) → List (Node α) → Bool
  | [], [] => true
  | node :: nodes, node' :: nodes' => node.beq node' && beqAll nodes nodes'
  | _, _ => false

end

instance [BEq α] : BEq (Node α) := ⟨beq⟩

end Node

namespace Connection

/-- The connection as a node of a larger tree. -/
def toNode (c : Connection α) : Node α := .branch c.kind c.children

/-- A connection needs a child, and a parallel connection needs two. -/
def validate (kind : ConnectionKind) (count : Nat) : Except ConnectionError Unit :=
  if count = 0 then .error (.empty kind)
  else if kind = .parallel ∧ count < 2 then .error (.insufficientBranches count)
  else .ok ()

/-- What a child contributes to a connection: its own children if it is one of the same kind. -/
def splice (kind : ConnectionKind) : Node α → List (Node α)
  | .leaf a => [.leaf a]
  | .branch inner children => if inner = kind then children else [.branch inner children]

/-- The connection of the given nodes. They are counted before they are spliced. -/
def ofChildren (kind : ConnectionKind) (children : List (Node α)) :
    Except ConnectionError (Connection α) := do
  validate kind children.length
  return ⟨kind, children.flatMap (splice kind)⟩

def isSeries (c : Connection α) : Bool := c.kind = .series

def isParallel (c : Connection α) : Bool := c.kind = .parallel

/-- The leaves from left to right. -/
def leaves (c : Connection α) : List α := c.toNode.leaves

instance [BEq α] : BEq (Connection α) := ⟨fun c d => c.toNode == d.toNode⟩

end Connection

end CircuitCode
