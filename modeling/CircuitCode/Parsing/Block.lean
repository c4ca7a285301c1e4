import CircuitCode.Element.Basic
import CircuitCode.Number.Reading
import CircuitCode.Parsing.Error

/-!
# Elements with their parameter blocks

A reader takes a part of circuit code from the start of some tokens and leaves the others. Where a
reader needs to know the position at which the text ends, this is `stop`. No reader adds tokens:
what it leaves is an end of what it was given (`TokenReader.Consumes`).
-/

namespace CircuitCode

/-- Reads something from the start of some tokens. -/
abbrev TokenReader := StateT (List Token) (Except ParseError)

namespace TokenReader

variable {α β : Type}

/-- Any token. -/
def token (stop : Nat) (context : ParseContext) : TokenReader Token
  | token :: rest => .ok (token, rest)
  | [] => .error (.insufficientTokens stop context)

/-- A token of the given kind. -/
def ofKind (stop : Nat) (kind : TokenKind) (context : ParseContext) : TokenReader Token := do
  let token ← token stop context
  if token.kind = kind then return token else throw (.ofToken token)

/-- Whether the next token passes a test. Nothing is taken. -/
def nextIs (test : Token → Bool) : TokenReader Bool :=
  fun tokens => .ok (tokens.head?.any test, tokens)

/-- Takes the next token if it passes a test. -/
def takeIf (test : Token → Bool) : TokenReader Bool :=
  fun tokens => .ok (tokens.head?.any test, if tokens.head?.any test then tokens.tail else tokens)

def isSlash (token : Token) : Bool := token.kind == .slash

def isOpenBrace (token : Token) : Bool := token.kind == .openBrace

/-- Whether a token marks a parameter as fixed. -/
def isFixedFlag (token : Token) : Bool := token.kind == .identifier && token.text == "F"

/-- A number. -/
def number (stop : Nat) : TokenReader Number
  | token :: rest =>
    match if token.kind = .number then Number.ofLiteral? token.text else none with
    | some value => .ok (value, rest)
    | none => .error (.expectedNumber token.position (some token.text))
  | [] => .error (.expectedNumber stop none)

/-- The place after the first slash, which is empty if another slash follows. -/
def lowerLimit (stop : Nat) (definition : ParameterDefinition) : TokenReader Number := do
  if ← nextIs isSlash then return definition.lower else number stop

/-- The upper limit with the slash before it, if they are there. -/
def upperLimit (stop : Nat) (definition : ParameterDefinition) : TokenReader Number := do
  if ← takeIf isSlash then number stop else return definition.upper

/-- The limits after a value. Those that are missing are as defined. -/
def limits (stop : Nat) (definition : ParameterDefinition) : TokenReader (Number × Number) := do
  if ← takeIf isSlash then
    let lower ← lowerLimit stop definition
    let upper ← upperLimit stop definition
    return (lower, upper)
  else return (definition.lower, definition.upper)

/-- The name of a parameter. -/
def name (stop : Nat) : TokenReader Token := do
  let token ← token stop .parameterDefinition
  match token.kind with
  | .identifier => return token
  | .equals => throw (.expectedIdentifier token.position)
  | _ => throw (.ofToken token)

/-- What follows the name of a parameter, and the element with this parameter set. -/
def assignment (stop : Nat) (element : Element) (definition : ParameterDefinition)
    (position : Nat) : TokenReader Element := do
  let _ ← ofKind stop .equals .parameterDefinition
  let value ← number stop
  let (lower, upper) ← limits stop definition
  let fixed ← takeIf isFixedFlag
  match element.setParameter definition.name value lower upper fixed with
  | .ok element => return element
  | .error cause => throw (.ofElementError position value cause)

/-- What follows the name of a parameter, which must not be among those already `defined`. -/
def definition (stop : Nat) (element : Element) (defined : List String) (name : Token) :
    TokenReader Element :=
  match element.kind.parameter? name.text with
  | none => throw (.unknownParameter name.position element.symbol name.text)
  | some definition =>
    if name.text ∈ defined then throw (.duplicateParameter name.position name.text)
    else assignment stop element definition name.position

/-- A label and the closing brace after it. -/
def label (stop : Nat) (element : Element) : TokenReader Element := do
  let label ← ofKind stop .label .parameterBlock
  match element.setLabel label.text with
  | .error _ => throw (.ofToken label)
  | .ok element =>
    let _ ← ofKind stop .closeBrace .parameterBlock
    return element

/-- The definitions in a parameter block, of which at most `remaining` are allowed, and the rest of
    the block. -/
def block (stop : Nat) (element : Element) (defined : List String) (remaining : Nat) :
    TokenReader Element := do
  let name ← name stop
  match remaining with
  | 0 =>
    throw (.tooManyParameters name.position element.symbol element.kind.parameters.length)
  | remaining + 1 =>
    let element ← definition stop element defined name
    let separator ← token stop .parameterBlock
    match separator.kind with
    | .comma => block stop element (name.text :: defined) remaining
    | .closeBrace => return element
    | .colon => label stop element
    | _ => throw (.ofToken separator)

/-- What follows the symbol of an element, and the element. -/
def element (stop : Nat) (symbol : Token) : TokenReader Element := do
  match ElementKind.ofSymbol? symbol.text with
  | none => throw (.invalidSymbol symbol.position symbol.text)
  | some kind =>
    if ← takeIf isOpenBrace then block stop (.ofKind kind) [] kind.parameters.length
    else return .ofKind kind

/-- What a reader leaves is an end of what it was given. -/
def Consumes (reader : TokenReader α) : Prop :=
  ∀ (tokens : List Token) (a : α) (rest : List Token),
    reader.run tokens = .ok (a, rest) → rest <:+ tokens

theorem consumes_pure (a : α) : Consumes (pure a) := by
  intro tokens b rest h
  cases h
  exact List.suffix_refl tokens

theorem consumes_throw (e : ParseError) : Consumes (throw e : TokenReader α) := by
  intro tokens a rest h
  cases h

theorem Consumes.bind {reader : TokenReader α} {next : α → TokenReader β}
    (h : Consumes reader) (hnext : ∀ a, Consumes (next a)) : Consumes (reader >>= next) := by
  intro tokens b rest hrun
  rw [StateT.run_bind] at hrun
  cases hread : reader.run tokens with
  | error e =>
    rw [hread] at hrun
    cases hrun
  | ok result =>
    rw [hread] at hrun
    exact (hnext result.1 result.2 b rest hrun).trans (h tokens result.1 result.2 hread)

theorem Consumes.ite {c : Prop} [Decidable c] {reader reader' : TokenReader α}
    (h : Consumes reader) (h' : Consumes reader') :
    Consumes (if c then reader else reader') := by
  split
  · exact h
  · exact h'

theorem consumes_token (stop : Nat) (context : ParseContext) : Consumes (token stop context) := by
  intro tokens a rest h
  cases tokens with
  | nil => cases h
  | cons next tokens =>
    cases h
    exact List.suffix_cons a rest

theorem consumes_ofKind (stop : Nat) (kind : TokenKind) (context : ParseContext) :
    Consumes (ofKind stop kind context) :=
  (consumes_token stop context).bind fun _ => (consumes_pure _).ite (consumes_throw _)

theorem consumes_nextIs (test : Token → Bool) : Consumes (nextIs test) := by
  intro tokens a rest h
  cases h
  exact List.suffix_refl tokens

theorem consumes_takeIf (test : Token → Bool) : Consumes (takeIf test) := by
  intro tokens a rest h
  cases h
  split
  · exact List.tail_suffix tokens
  · exact List.suffix_refl tokens

theorem consumes_number (stop : Nat) : Consumes (number stop) := by
  intro tokens a rest h
  cases tokens with
  | nil => cases h
  | cons next tokens =>
    simp only [number, StateT.run] at h
    split at h
    · cases h
      exact List.suffix_cons next rest
    · cases h

theorem consumes_limits (stop : Nat) (definition : ParameterDefinition) :
    Consumes (limits stop definition) := by
  have hlower : Consumes (lowerLimit stop definition) :=
    (consumes_nextIs _).bind fun _ => (consumes_pure _).ite (consumes_number stop)
  have hupper : Consumes (upperLimit stop definition) :=
    (consumes_takeIf _).bind fun _ => (consumes_number stop).ite (consumes_pure _)
  exact (consumes_takeIf _).bind fun _ =>
    (hlower.bind fun _ => hupper.bind fun _ => consumes_pure _).ite (consumes_pure _)

theorem consumes_name (stop : Nat) : Consumes (name stop) := by
  refine (consumes_token stop _).bind fun next => ?_
  split
  · exact consumes_pure next
  · exact consumes_throw _
  · exact consumes_throw _

theorem consumes_assignment (stop : Nat) (element : Element) (definition : ParameterDefinition)
    (position : Nat) : Consumes (assignment stop element definition position) := by
  refine (consumes_ofKind stop _ _).bind fun _ => (consumes_number stop).bind fun value =>
    (consumes_limits stop definition).bind fun limits => (consumes_takeIf _).bind fun fixed => ?_
  split
  · exact consumes_pure _
  · exact consumes_throw _

theorem consumes_definition (stop : Nat) (element : Element) (defined : List String)
    (name : Token) : Consumes (definition stop element defined name) := by
  unfold definition
  split
  · exact consumes_throw _
  · exact (consumes_throw _).ite (consumes_assignment stop element _ _)

theorem consumes_label (stop : Nat) (element : Element) : Consumes (label stop element) := by
  refine (consumes_ofKind stop _ _).bind fun text => ?_
  split
  · exact consumes_throw _
  · exact (consumes_ofKind stop _ _).bind fun _ => consumes_pure _

theorem consumes_block (stop : Nat) (element : Element) (defined : List String)
    (remaining : Nat) : Consumes (block stop element defined remaining) := by
  induction remaining generalizing element defined with
  | zero =>
    unfold block
    exact (consumes_name stop).bind fun _ => consumes_throw _
  | succ remaining ih =>
    unfold block
    refine (consumes_name stop).bind fun name =>
      (consumes_definition stop element defined name).bind fun element =>
        (consumes_token stop _).bind fun separator => ?_
    split
    · exact ih _ _
    · exact consumes_pure _
    · exact consumes_label stop _
    · exact consumes_throw _

/-- An element is read from the tokens after its symbol on, and leaves an end of them. -/
theorem consumes_element (stop : Nat) (symbol : Token) : Consumes (element stop symbol) := by
  unfold element
  split
  · exact consumes_throw _
  · exact (consumes_takeIf _).bind fun _ => (consumes_block stop _ _ _).ite (consumes_pure _)

end TokenReader

end CircuitCode
