import CircuitCode.Parsing.Item
import CircuitCode.Token.Scan

/-!
# Parsing circuit code

`parse` reads a circuit from its text. The text is split into tokens, these into elements and
brackets, and what stands between two brackets that belong together is joined into a connection.
-/

namespace CircuitCode

/-- A connection whose closing bracket is still to come. -/
structure OpenConnection where
  kind : ConnectionKind
  /-- The position of the opening bracket. -/
  position : Nat
  /-- The nodes before it in the connection around it. -/
  before : List (Node Element)

namespace Items

/-- Joins items into nodes, given the connections that are open, the innermost first, and the
    nodes so far in the innermost one. -/
def join (stop : Nat) (failure : Option ParseError) (outer : List OpenConnection)
    (nodes : List (Node Element)) (items : List Item) :
    Except ParseError (List (Node Element)) :=
  match items with
  | [] =>
    match failure, outer with
    | some e, _ => .error e
    | none, [] => .ok nodes
    | none, _ :: _ => .error (.insufficientTokens stop .connection)
  | .element element :: items => join stop failure outer (nodes ++ [.leaf element]) items
  | .opening kind position :: items =>
    join stop failure (⟨kind, position, nodes⟩ :: outer) [] items
  | .closing kind position :: items =>
    match outer with
    | [] => .error (.unexpectedToken position kind.brackets.2)
    | inner :: outer =>
      if inner.kind = kind then
        match Connection.ofChildren kind nodes with
        | .ok connection => join stop failure outer (inner.before ++ [connection.toNode]) items
        | .error cause => .error (.ofConnectionError inner.position cause)
      else .error (.unexpectedToken position kind.brackets.2)

/-- The nodes that the items of a text make up. -/
def nodes (stop : Nat) (items : Items) : Except ParseError (List (Node Element)) :=
  join stop items.failure [] [] items.items

end Items

/-- The circuit that the tokens of a text make up. The text ends at the position `stop`. -/
def parseTokens (stop : Nat) (tokens : List Token) : Except ParseError Circuit := do
  let nodes ← (Items.ofTokens stop tokens).nodes stop
  match Connection.ofChildren .series nodes with
  | .ok root => return .ofConnection root
  | .error _ => throw (.insufficientTokens stop .circuit)

/-- A character that no token starts with. -/
def ParseError.ofStray (stray : StrayCharacter) : ParseError :=
  .unexpectedToken stray.position (String.singleton stray.char)

/-- A parser, which may be used for any number of texts. It keeps the tokens of the last text that
    it could split into tokens, and where that text ends. -/
structure Parser where
  tokens : List Token := []
  stop : Nat := 0

/-- Reads a circuit from a text, and leaves the parser to be used again. -/
def Parser.process (p : Parser) (text : String) : Except ParseError Circuit × Parser :=
  let scan := tokenize text
  match scan.stray with
  | some stray => (.error (.ofStray stray), p)
  | none =>
    let p : Parser := ⟨scan.tokens, byteLength text.toList⟩
    (parseTokens p.stop p.tokens, p)

/-- The circuit that a text describes. -/
def parse (text : String) : Except ParseError Circuit := (Parser.process {} text).1

end CircuitCode
