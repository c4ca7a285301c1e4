import CircuitCode.Connection.Query
import CircuitCode.Element.Basic

/-!
# Circuits

A circuit is a series connection of elements and connections, with the elements of each kind
numbered. Numbers that elements bring along are kept; the others follow the highest of them from
left to right.
-/

namespace CircuitCode

/-- A complete circuit. -/
structure Circuit where
  root : Connection Element
deriving BEq

/-- The highest identifier that an element can have. -/
def maxIdentifier : Nat := 4294967295

/-- The highest identifier among elements of a kind, or zero. -/
def highestIdentifier (elements : List Element) (kind : ElementKind) : Nat :=
  elements.foldl
    (fun highest e => if e.kind = kind then max highest (e.identifier.getD 0) else highest) 0

/-- Numbers an element that has no identifier with the one after the last of its kind. An element
    for which there is none stays without. -/
def Element.number (last : ElementKind → Nat) (e : Element) : Element × (ElementKind → Nat) :=
  let next := last e.kind + 1
  if e.identifier.isSome || maxIdentifier < next then (e, last)
  else ({ e with identifier := some next }, fun kind => if kind = e.kind then next else last kind)

namespace Circuit

/-- A series around a connection, unless it is a series itself. -/
def asSeries (c : Connection Element) : Connection Element :=
  match c.kind with
  | .series => c
  | .parallel => ⟨.series, [c.toNode]⟩

/-- The circuit around a connection, with all elements numbered. -/
def ofConnection (c : Connection Element) : Circuit :=
  let root := asSeries c
  ⟨(root.traverse Element.number (highestIdentifier root.leaves)).1⟩

/-- The elements from left to right. -/
def elements (c : Circuit) : List Element := c.root.leaves

/-- The element with the given number. -/
def element? (c : Circuit) (index : Nat) : Option Element := c.root.leaf? index

/-- The root and then the connections inside it, in pre-order. -/
def connections (c : Circuit) : List (Connection Element) := c.root :: c.root.nested

/-- The connection with the given number; the root has number zero. -/
def connection? (c : Circuit) : Nat → Option (Connection Element)
  | 0 => some c.root
  | index + 1 => c.root.nested? index

/-- The path from the root to the connection with the given number. -/
def locate (c : Circuit) : Nat → Option Path
  | 0 => some []
  | index + 1 => c.root.locate index

/-- The connection with the given number, found along its path. -/
def connectionAt? (c : Circuit) (index : Nat) : Option (Connection Element) :=
  (c.locate index).bind c.root.at?

/-- Changes the element with the given number. -/
def modifyElement (c : Circuit) (index : Nat) (f : Element → Element) : Circuit :=
  ⟨c.root.modifyLeaf index f⟩

/-- The paths to the elements, from left to right. -/
def elementPaths (c : Circuit) : List Path := c.root.leafPaths

/-- Changes the element at the end of a path. -/
def modifyElementAt (c : Circuit) (path : Path) (f : Element → Element) : Circuit :=
  ⟨c.root.modifyLeafAt f path⟩

/-- Changes an element by its number inside the connection of the given number. -/
def modifyElementIn (c : Circuit) (connection index : Nat) (f : Element → Element) : Circuit :=
  match c.locate connection with
  | some path => ⟨c.root.modifyAt (fun inner => inner.modifyLeaf index f) path⟩
  | none => c

/-- Runs a step on each element in place, from left to right, and lists what the steps answer. -/
def modifyEach {β : Type} (c : Circuit) (step : Element → Element × β) : Circuit × List β :=
  let (root, answers) := c.root.traverse
    (fun answers e =>
      let (e', answer) := step e
      (e', answers ++ [answer])) []
  (⟨root⟩, answers)

end Circuit

end CircuitCode
