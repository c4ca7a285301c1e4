import CircuitCode.Number.Rounding

/-!
# Kinds of circuit elements

The thirteen kinds of elements, and for each the symbol that circuit code uses, its descriptions
and its parameters with their defaults and limits.
-/

namespace CircuitCode

/-- A kind of circuit element. -/
inductive ElementKind where
  | resistor
  | capacitor
  | inductor
  | modifiedInductor
  | constantPhase
  | warburg
  | warburgShort
  | warburgOpen
  | deLevie
  | gerischer
  | havriliakNegami
  | havriliakNegamiAlternative
  | kramersKronig
deriving DecidableEq, Repr, Inhabited

/-- What is known of a parameter of some kind of element. -/
structure ParameterDefinition where
  name : String
  default : Number
  lower : Number
  upper : Number
  /-- An annotation for readers; nothing is converted. -/
  unit : String
  fixed : Bool := false

/-- What is known of a kind of element. -/
structure ElementDefinition where
  symbol : String
  /-- One line, starting with the symbol. -/
  description : String
  /-- Several lines, with the formula of the impedance. -/
  extendedDescription : String
  parameters : List ParameterDefinition

namespace ElementKind

/-- Every kind, in the order of the registry. -/
def all : List ElementKind :=
  [resistor, capacitor, inductor, modifiedInductor, constantPhase, warburg, warburgShort,
    warburgOpen, deLevie, gerischer, havriliakNegami, havriliakNegamiAlternative, kramersKronig]

/-- The definition of each kind. -/
def definition : ElementKind → ElementDefinition
  | resistor =>
    ⟨"R", "R: Resistor", "Resistor\n\n    Z = R\n",
      [⟨"R", 1e3, 0, .infinity, "ohm", false⟩]⟩
  | capacitor =>
    ⟨"C", "C: Capacitor", "Capacitor\n\n    Z = 1/(C*j*2*pi*f)\n",
      [⟨"C", 1e-6, 1e-24, 1e3, "F", false⟩]⟩
  | inductor =>
    ⟨"L", "L: Inductor", "Inductor\n\n    Z = L*j*2*pi*f\n",
      [⟨"L", 1e-6, 0, 1e3, "H", false⟩]⟩
  | modifiedInductor =>
    ⟨"La", "La: Modified inductor",
      "Modified inductor\n\n    Z = L*(j*2*pi*f)^n\n\n" ++
        "An inductor with a non-ideal phase, 0 <= n <= 1.\n",
      [⟨"L", 1e-6, 0, 1e3, "H*s^(n-1)", false⟩,
        ⟨"n", 0.95, 0, 1, "", false⟩]⟩
  | constantPhase =>
    ⟨"Q", "Q: Constant phase element",
      "Constant phase element\n\n    Z = 1/(Y*(j*2*pi*f)^n)\n\n" ++
        "Behaves as a capacitor for n = 1 and as a resistor for n = 0.\n",
      [⟨"Y", 1e-6, 1e-24, 1e3, "S*s^n", false⟩,
        ⟨"n", 0.95, 0, 1, "", false⟩]⟩
  | warburg =>
    ⟨"W", "W: Warburg, semi-infinite diffusion",
      "Warburg (semi-infinite)\n\n    Z = 1/(Y*(j*2*pi*f)^(1/2))\n",
      [⟨"Y", 1, 1e-24, .infinity, "S*s^(1/2)", false⟩]⟩
  | warburgShort =>
    ⟨"Ws", "Ws: Warburg, finite length or short",
      "Warburg (finite length, transmissive boundary)\n\n" ++
        "    Z = tanh((B*j*2*pi*f)^n)/(Y*(j*2*pi*f)^n)\n",
      [⟨"Y", 1, 1e-24, .infinity, "S*s^n", false⟩,
        ⟨"B", 1, 1e-24, .infinity, "s", false⟩,
        ⟨"n", 0.5, 0, 1, "", false⟩]⟩
  | warburgOpen =>
    ⟨"Wo", "Wo: Warburg, finite space or open",
      "Warburg (finite space, reflective boundary)\n\n" ++
        "    Z = coth((B*j*2*pi*f)^n)/(Y*(j*2*pi*f)^n)\n",
      [⟨"Y", 1, 1e-24, .infinity, "S*s^n", false⟩,
        ⟨"B", 1, 1e-24, .infinity, "s", false⟩,
        ⟨"n", 0.5, 0, 1, "", false⟩]⟩
  | deLevie =>
    ⟨"Ls", "Ls: de Levie pore, finite length",
      "de Levie pore (finite length)\n\n" ++
        "    Z = (Ri*Rr)^(1/2)*coth(d*(Ri/Rr)^(1/2)*(1 + Y*(j*2*pi*f)^n)^(1/2))" ++
        "/(1 + Y*(j*2*pi*f)^n)^(1/2)\n\n" ++
        "Ri is the pore ionic resistance and Rr the interfacial (charge transfer)\n" ++
        "resistance per unit length, d the pore length.\n",
      [⟨"Ri", 10, 0, .infinity, "ohm/m", false⟩,
        ⟨"Rr", 1, 0, .infinity, "ohm*m", false⟩,
        ⟨"Y", 0.01, 1e-24, .infinity, "S*s^n/m", false⟩,
        ⟨"n", 0.8, 0, 1, "", false⟩,
        ⟨"d", 0.2, 1e-24, .infinity, "m", false⟩]⟩
  | gerischer =>
    ⟨"G", "G: Gerischer", "Gerischer\n\n    Z = 1/(Y*(k + j*2*pi*f)^n)\n",
      [⟨"Y", 1, 1e-24, .infinity, "S*s^n", false⟩,
        ⟨"k", 1, 1e-24, .infinity, "1/s", false⟩,
        ⟨"n", 0.5, 0, 1, "", false⟩]⟩
  | havriliakNegami =>
    ⟨"H", "H: Havriliak-Negami relaxation",
      "Havriliak-Negami relaxation\n\n    Z = (1 + (j*2*pi*f*t)^a)^b/(j*2*pi*f*dC)\n\n" ++
        "Reduces to Cole-Cole for b = 1 and to Cole-Davidson for a = 1.\n",
      [⟨"dC", 1e-6, 1e-24, .infinity, "F", false⟩,
        ⟨"t", 1, 1e-24, .infinity, "s", false⟩,
        ⟨"a", 0.9, 0, 1, "", false⟩,
        ⟨"b", 0.9, 0, 1, "", false⟩]⟩
  | havriliakNegamiAlternative =>
    ⟨"Ha", "Ha: Havriliak-Negami relaxation (alternative form)",
      "Havriliak-Negami relaxation (alternative form)\n\n    Z = R/(1 + (j*2*pi*f*t)^a)^b\n",
      [⟨"R", 1, 0, .infinity, "ohm", false⟩,
        ⟨"t", 1, 1e-24, .infinity, "s", false⟩,
        ⟨"a", 0.7, 0, 1, "", false⟩,
        ⟨"b", 0.8, 0, 1, "", false⟩]⟩
  | kramersKronig =>
    ⟨"K", "K: Kramers-Kronig RC element",
      "Kramers-Kronig RC element\n\n    Z = R/(1 + j*2*pi*f*t)\n\n" ++
        "A parallel RC pair parametrised by its time constant t = R*C.\n",
      [⟨"R", 1, -.infinity, .infinity, "ohm", false⟩,
        ⟨"t", 1, 1e-24, .infinity, "s", false⟩]⟩

def symbol (kind : ElementKind) : String := kind.definition.symbol

def parameters (kind : ElementKind) : List ParameterDefinition := kind.definition.parameters

/-- The definition of a kind's parameter of the given name. -/
def parameter? (kind : ElementKind) (name : String) : Option ParameterDefinition :=
  kind.parameters.find? fun definition => definition.name == name

/-- The kind with the given symbol; upper and lower case differ. -/
def ofSymbol? (symbol : String) : Option ElementKind :=
  all.find? fun kind => kind.symbol == symbol

/-- Whether the kind is listed as known. The Kramers-Kronig element is a helper and is not. -/
def isPublic (kind : ElementKind) : Bool := kind != kramersKronig

/-- The kinds that are listed as known. -/
def known : List ElementKind := all.filter isPublic

end ElementKind

end CircuitCode
