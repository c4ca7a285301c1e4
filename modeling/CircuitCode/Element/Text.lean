import CircuitCode.Element.Basic

/-!
# Elements in circuit code

The bare text of an element is its symbol. With a number of decimals its parameter block follows,
in which a limit is left out if it is written like the limit of the kind.
-/

namespace CircuitCode

/-- The limits of a parameter. A slash stands before each; a lower limit like the default leaves
    its place empty, and an upper limit like the default is left out with its slash. -/
def limitsText (lower defaultLower upper defaultUpper : String) : String :=
  if lower = defaultLower ∧ upper = defaultUpper then ""
  else
    "/" ++ (if lower = defaultLower then "" else lower) ++
      (if upper = defaultUpper then "" else "/" ++ upper)

/-- One definition in a parameter block. -/
def Parameter.text (p : Parameter) (definition : ParameterDefinition) (decimals : Nat) :
    String :=
  p.name ++ "=" ++ p.value.code decimals ++
    limitsText (p.lower.code decimals) (definition.lower.code decimals)
      (p.upper.code decimals) (definition.upper.code decimals) ++
    (if p.fixed then "F" else "")

namespace Element

/-- The definitions in the parameter block of an element. -/
def definitionTexts (e : Element) (decimals : Nat) : List String :=
  List.zipWith (fun p definition => p.text definition decimals) e.parameters e.kind.parameters

/-- The parameter block of an element. -/
def blockText (e : Element) (decimals : Nat) : String :=
  "\x7b" ++ String.intercalate "," (e.definitionTexts decimals) ++
    (match e.label with
      | some label => ":" ++ label
      | none => "") ++
    "\x7d"

/-- The text of an element, bare or with a number of decimals. -/
def text (e : Element) (decimals : Option Nat) : String :=
  match decimals with
  | none => e.symbol
  | some decimals => e.symbol ++ e.blockText decimals

end Element

end CircuitCode
