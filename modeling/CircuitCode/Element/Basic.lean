import CircuitCode.Element.Kind
import CircuitCode.Number.Text
import CircuitCode.Text.Blank

/-!
# Circuit elements

An element has a kind, parameters with limits and a fixed flag, perhaps a label, and an identifier
once a circuit has numbered it. Every change is checked: a parameter keeps
`lower ≤ value ≤ upper`, none of them is ever a value that is not a number, and a label can be
written in a parameter block.

A change is made in place. `Element.change` says what it leaves of the element and whether it
succeeds.
-/

namespace CircuitCode

/-- The state of one parameter. -/
structure Parameter where
  name : String
  value : Number
  lower : Number
  upper : Number
  /-- Held constant when a circuit is fitted to data. -/
  fixed : Bool
deriving DecidableEq, BEq

/-- A circuit element. -/
structure Element where
  kind : ElementKind
  identifier : Option Nat
  label : Option String
  parameters : List Parameter
deriving DecidableEq, BEq

/-- Why a change of an element is refused. -/
inductive ElementError where
  | unknownParameter (symbol name : String)
  | invalidValue (name : String) (value : Number)
  | lowerLimit (name : String) (value lower : Number)
  | upperLimit (name : String) (value upper : Number)
  | limitOrder (name : String) (lower upper : Number)
  | invalidLabel (label : String)
deriving DecidableEq

def ElementError.message : ElementError → String
  | unknownParameter symbol name =>
    "element '" ++ symbol ++ "' has no parameter named '" ++ name ++ "'"
  | invalidValue name value =>
    "parameter '" ++ name ++ "' cannot be set to " ++ value.plain
  | lowerLimit name value lower =>
    "value " ++ value.plain ++ " of parameter '" ++ name ++ "' is below its lower limit " ++
      lower.plain
  | upperLimit name value upper =>
    "value " ++ value.plain ++ " of parameter '" ++ name ++ "' is above its upper limit " ++
      upper.plain
  | limitOrder name lower upper =>
    "lower limit " ++ lower.plain ++ " of parameter '" ++ name ++
      "' is above its upper limit " ++ upper.plain
  | invalidLabel label => "invalid label '" ++ label ++ "'"

/-- Checks `lower ≤ value ≤ upper`. Crossed limits are reported before a value outside them. -/
def checkRange (name : String) (value lower upper : Number) : Except ElementError Unit :=
  if value.isNaN || lower.isNaN || upper.isNaN then .error (.invalidValue name (.nan false))
  else if upper < lower then .error (.limitOrder name lower upper)
  else if value < lower then .error (.lowerLimit name value lower)
  else if upper < value then .error (.upperLimit name value upper)
  else .ok ()

/-- A parameter in the state its definition gives. -/
def ParameterDefinition.instantiate (definition : ParameterDefinition) : Parameter :=
  ⟨definition.name, definition.default, definition.lower, definition.upper, definition.fixed⟩

/-- Puts what is given in the place of a parameter if its numbers are in order. -/
def Parameter.replace (p new : Parameter) : Parameter × Except ElementError Unit :=
  match checkRange p.name new.value new.lower new.upper with
  | .ok () => (new, .ok ())
  | .error cause => (p, .error cause)

/-- A change of an element. -/
inductive ElementChange where
  /-- A value, which the limits have to allow. -/
  | value (name : String) (value : Number)
  /-- A lower limit, which the value has to allow. -/
  | lower (name : String) (lower : Number)
  /-- An upper limit, which the value has to allow. -/
  | upper (name : String) (upper : Number)
  | fixed (name : String) (fixed : Bool)
  /-- A value, both limits and the flag at once; only the new numbers are compared. -/
  | parameter (name : String) (value lower upper : Number) (fixed : Bool)
  /-- A label. The empty text takes it away. -/
  | label (text : String)

namespace Element

/-- An element with default parameters, neither labelled nor numbered. -/
def ofKind (kind : ElementKind) : Element :=
  ⟨kind, none, none, kind.parameters.map ParameterDefinition.instantiate⟩

def symbol (e : Element) : String := e.kind.symbol

/-- The symbol, followed by the identifier once there is one. -/
def defaultLabel (e : Element) : String :=
  match e.identifier with
  | some identifier => e.symbol ++ "_" ++ toString identifier
  | none => e.symbol

/-- The symbol and the label, or the default label. -/
def fullLabel (e : Element) : String :=
  match e.label with
  | some label => e.symbol ++ "_" ++ label
  | none => e.defaultLabel

/-- The symbol that stands for a parameter in an expression. -/
def parameterSymbol (e : Element) (name : String) : String := name ++ "_" ++ e.fullLabel

def parameter (e : Element) (name : String) : Except ElementError Parameter :=
  match e.parameters.find? fun p => p.name == name with
  | some p => .ok p
  | none => .error (.unknownParameter e.symbol name)

/-- Puts a parameter in the place of the one that is found under the name. -/
def store (e : Element) (name : String) (p : Parameter) : Element :=
  { e with parameters := e.parameters.set (e.parameters.findIdx fun p => p.name == name) p }

/-- Changes the parameter of the given name. What the change leaves of it is stored, with success or
    without. -/
def update (e : Element) (name : String)
    (change : Parameter → Parameter × Except ElementError Unit) :
    Element × Except ElementError Unit :=
  match e.parameter name with
  | .ok p => (e.store name (change p).1, (change p).2)
  | .error cause => (e, .error cause)

/-- Whether a text can be a label: it has no brace and neither starts nor ends with a blank. -/
def isLabel (text : String) : Bool :=
  !text.toList.any (fun c => c == '\x7b' || c == '\x7d') && isTrimmed text.toList

/-- What a change leaves of an element, and whether it succeeds. -/
def change (e : Element) : ElementChange → Element × Except ElementError Unit
  | .value name value => e.update name fun p => p.replace { p with value := value }
  | .lower name lower => e.update name fun p => p.replace { p with lower := lower }
  | .upper name upper => e.update name fun p => p.replace { p with upper := upper }
  | .fixed name fixed => e.update name fun p => ({ p with fixed := fixed }, .ok ())
  | .parameter name value lower upper fixed =>
    e.update name fun p => p.replace ⟨p.name, value, lower, upper, fixed⟩
  | .label text =>
    if isLabel text then
      ({ e with label := if text.isEmpty then none else some text }, .ok ())
    else (e, .error (.invalidLabel text))

/-- The element that a change leaves, if it succeeds. The setters below give an element up that
    refuses the change. -/
def accepted (result : Element × Except ElementError Unit) : Except ElementError Element :=
  result.2.map fun _ => result.1

def setValue (e : Element) (name : String) (value : Number) : Except ElementError Element :=
  accepted (e.change (.value name value))

def setLower (e : Element) (name : String) (lower : Number) : Except ElementError Element :=
  accepted (e.change (.lower name lower))

def setUpper (e : Element) (name : String) (upper : Number) : Except ElementError Element :=
  accepted (e.change (.upper name upper))

def setFixed (e : Element) (name : String) (fixed : Bool) : Except ElementError Element :=
  accepted (e.change (.fixed name fixed))

def setParameter (e : Element) (name : String) (value lower upper : Number) (fixed : Bool) :
    Except ElementError Element :=
  accepted (e.change (.parameter name value lower upper fixed))

def setLabel (e : Element) (label : String) : Except ElementError Element :=
  accepted (e.change (.label label))

/-- Sets values one after the other. -/
def setValues (e : Element) (values : List (String × Number)) : Except ElementError Element :=
  values.foldlM (fun e entry => e.setValue entry.1 entry.2) e

/-- An element with the given values and defaults for the others. -/
def withValues (kind : ElementKind) (values : List (String × Number)) :
    Except ElementError Element :=
  (ofKind kind).setValues values

end Element

end CircuitCode
