import CircuitCode.Circuit.Text
import CircuitCode.Parsing.Block

/-!
# Elements and brackets

The tokens of a text make up elements, each with its parameter block, and the brackets around
them. `Items.ofTokens` lists these items from left to right, up to the end of the tokens or up to
the first token where neither an element nor a bracket can be read.
-/

namespace CircuitCode

/-- An element or a bracket, with the bracket's position. -/
inductive Item where
  | element (element : Element)
  | opening (kind : ConnectionKind) (position : Nat)
  | closing (kind : ConnectionKind) (position : Nat)

/-- The items of a text and the error at which they end early, if there is one. -/
structure Items where
  items : List Item
  failure : Option ParseError

namespace Items

def cons (item : Item) (rest : Items) : Items := ⟨item :: rest.items, rest.failure⟩

def fail (e : ParseError) : Items := ⟨[], some e⟩

/-- The items that tokens make up. -/
def ofTokens (stop : Nat) : List Token → Items
  | [] => ⟨[], none⟩
  | token :: tokens =>
    match token.kind with
    | .symbol =>
      match _h : (TokenReader.element stop token).run tokens with
      | .ok (element, rest) => cons (.element element) (ofTokens stop rest)
      | .error e => fail e
    | .openBracket => cons (.opening .series token.position) (ofTokens stop tokens)
    | .openParen => cons (.opening .parallel token.position) (ofTokens stop tokens)
    | .closeBracket => cons (.closing .series token.position) (ofTokens stop tokens)
    | .closeParen => cons (.closing .parallel token.position) (ofTokens stop tokens)
    | _ => fail (.ofToken token)
termination_by tokens => tokens.length
decreasing_by
  · have := (TokenReader.consumes_element stop token tokens element rest ‹_›).length_le
    simp only [List.length_cons]
    omega
  all_goals simp

end Items

end CircuitCode
