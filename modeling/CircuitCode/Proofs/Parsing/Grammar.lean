import CircuitCode.Proofs.Element.State
import CircuitCode.Circuit.Basic
import CircuitCode.Parsing.Block

/-!
# The grammar of circuit code

Which lists of tokens make up which trees, without regard to how they are read:

* a circuit is one node or more;
* a node is an element, two nodes or more in round brackets or one or more in square brackets;
* an element is a symbol, perhaps with a parameter block;
* a parameter block has one definition or more with commas between, and perhaps a label.

`Grammar.Leaf.Valid` is what the grammar leaves to the meaning of an element: its parameters exist,
are given once each, and lie between their limits. `Grammar.circuit` is the circuit that a derived
tree stands for.
-/

namespace CircuitCode

namespace Node

variable {α : Type}

/-- What stands for a node among the children of a connection: the node itself or, if it is a
    connection of the same kind, what stands for its own children. -/
def splicedInto : Node α → ConnectionKind → List (Node α) :=
  fold (fun a _ => [.leaf a]) fun inner children outer =>
    if inner = outer then children.flatMap (· outer)
    else [.branch inner (children.flatMap (· inner))]

/-- The tree in which no connection is a child of one of its kind. -/
def spliced : Node α → Node α
  | .leaf a => .leaf a
  | .branch kind children => .branch kind (children.flatMap (splicedInto · kind))

end Node

namespace Grammar

/-- A parameter as it is given in a parameter block. A limit may be left out. -/
structure Definition where
  name : String
  value : Number
  lower : Option Number
  upper : Option Number
  fixed : Bool

/-- An element as it is given, with nothing in its block if it has none. -/
structure Leaf where
  kind : ElementKind
  definitions : List Definition
  label : Option String

/-- A token is a number of the given value. -/
def Numeral (token : Token) (value : Number) : Prop :=
  token.kind = .number ∧ Number.ofLiteral? token.text = some value

/-- What may follow a value: a lower limit, both limits, or an upper one after two slashes. -/
inductive Limits : List Token → Option Number → Option Number → Prop where
  | none : Limits [] none none
  | lower {slash number : Token} {value : Number} (hslash : slash.kind = .slash)
      (hnumber : Numeral number value) : Limits [slash, number] (some value) none
  | both {slash number slash' number' : Token} {lower upper : Number}
      (hslash : slash.kind = .slash) (hlower : Numeral number lower)
      (hslash' : slash'.kind = .slash) (hupper : Numeral number' upper) :
      Limits [slash, number, slash', number'] (some lower) (some upper)
  | upper {slash slash' number : Token} {value : Number} (hslash : slash.kind = .slash)
      (hslash' : slash'.kind = .slash) (hnumber : Numeral number value) :
      Limits [slash, slash', number] none (some value)

/-- The mark of a fixed parameter, which may be missing. -/
inductive Flag : List Token → Bool → Prop where
  | absent : Flag [] false
  | present {token : Token} (hkind : token.kind = .identifier) (htext : token.text = "F") :
      Flag [token] true

/-- One definition: a name, a value, limits and the mark of a fixed parameter. -/
inductive Defines : List Token → Definition → Prop where
  | mk {name equals number : Token} {limits flag : List Token} {value : Number}
      {lower upper : Option Number} {fixed : Bool} (hname : name.kind = .identifier)
      (hequals : equals.kind = .equals) (hnumber : Numeral number value)
      (hlimits : Limits limits lower upper) (hflag : Flag flag fixed) :
      Defines (name :: equals :: number :: (limits ++ flag)) ⟨name.text, value, lower, upper, fixed⟩

/-- The end of a parameter block: the brace, perhaps after a label. -/
inductive BlockEnd : List Token → Option String → Prop where
  | bare {brace : Token} (hbrace : brace.kind = .closeBrace) : BlockEnd [brace] none
  | label {colon label brace : Token} (hcolon : colon.kind = .colon)
      (hlabel : label.kind = .label) (hbrace : brace.kind = .closeBrace) :
      BlockEnd [colon, label, brace] (some label.text)

/-- A parameter block after its opening brace. -/
inductive BlockBody : List Token → List Definition → Option String → Prop where
  | last {tokens close : List Token} {definition : Definition} {label : Option String}
      (hdefinition : Defines tokens definition) (hclose : BlockEnd close label) :
      BlockBody (tokens ++ close) [definition] label
  | cons {tokens rest : List Token} {comma : Token} {definition : Definition}
      {definitions : List Definition} {label : Option String}
      (hdefinition : Defines tokens definition) (hcomma : comma.kind = .comma)
      (hrest : BlockBody rest definitions label) :
      BlockBody (tokens ++ comma :: rest) (definition :: definitions) label

/-- A parameter block, which may be missing. -/
inductive Block : List Token → List Definition → Option String → Prop where
  | absent : Block [] [] none
  | present {brace : Token} {body : List Token} {definitions : List Definition}
      {label : Option String} (hbrace : brace.kind = .openBrace)
      (hbody : BlockBody body definitions label) : Block (brace :: body) definitions label

/-- The tokens of the brackets around a connection. -/
def bracketKinds : ConnectionKind → TokenKind × TokenKind
  | .series => (.openBracket, .closeBracket)
  | .parallel => (.openParen, .closeParen)

/-- The least number of nodes between the brackets of a connection. -/
def leastNodes : ConnectionKind → Nat
  | .series => 1
  | .parallel => 2

mutual

/-- A node: an element with its block, or nodes in brackets. -/
inductive DerivesNode : List Token → Node Leaf → Prop where
  | element {symbol : Token} {kind : ElementKind} {block : List Token}
      {definitions : List Definition} {label : Option String} (hsymbol : symbol.kind = .symbol)
      (hkind : ElementKind.ofSymbol? symbol.text = some kind)
      (hblock : Block block definitions label) :
      DerivesNode (symbol :: block) (.leaf ⟨kind, definitions, label⟩)
  | connection {opening closing : Token} {inner : List Token} {kind : ConnectionKind}
      {children : List (Node Leaf)} (hopening : opening.kind = (bracketKinds kind).1)
      (hinner : DerivesNodes inner children) (hcount : leastNodes kind ≤ children.length)
      (hclosing : closing.kind = (bracketKinds kind).2) :
      DerivesNode (opening :: (inner ++ [closing])) (.branch kind children)

/-- Nodes, one after the other. -/
inductive DerivesNodes : List Token → List (Node Leaf) → Prop where
  | nil : DerivesNodes [] []
  | cons {tokens rest : List Token} {node : Node Leaf} {nodes : List (Node Leaf)}
      (hnode : DerivesNode tokens node) (hrest : DerivesNodes rest nodes) :
      DerivesNodes (tokens ++ rest) (node :: nodes)

end

/-- What the grammar does not say of an element. The order of a value and its limits counts for
    the limits of the kind where none are given. -/
structure Leaf.Valid (x : Leaf) : Prop where
  names : ∀ d ∈ x.definitions, d.name ∈ x.kind.parameters.map ParameterDefinition.name
  distinct : (x.definitions.map Definition.name).Nodup
  ordered : ∀ d ∈ x.definitions, ∀ p ∈ x.kind.parameters, p.name = d.name →
    d.lower.getD p.lower ≤ d.value ∧ d.value ≤ d.upper.getD p.upper
  label : ∀ text, x.label = some text → '\x7b' ∉ text.toList

/-- A parameter with what is given for it, and as the kind has it otherwise. -/
def Leaf.parameter (x : Leaf) (p : ParameterDefinition) : Parameter :=
  match x.definitions.find? fun d => d.name == p.name with
  | some d => ⟨p.name, d.value, d.lower.getD p.lower, d.upper.getD p.upper, d.fixed⟩
  | none => p.instantiate

/-- The element that is given. An empty label is none. -/
def Leaf.element (x : Leaf) : Element :=
  ⟨x.kind, none, x.label.filter fun text => text != "", x.kind.parameters.map x.parameter⟩

/-- The circuit that nodes make up when they are put in series. -/
def circuit (nodes : List (Node Leaf)) : Circuit :=
  .ofConnection ⟨.series, nodes.flatMap fun node => (node.map Leaf.element).splicedInto .series⟩

end Grammar

end CircuitCode
