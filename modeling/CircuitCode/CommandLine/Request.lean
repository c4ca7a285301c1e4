import CircuitCode.Circuit.Text
import CircuitCode.Number.Reading

/-!
# Arguments of the command

The command takes one circuit code and options in any order. An option with a value is written
`-d 3`, `-d3`, `-d=3`, `--decimals 3` or `--decimals=3`; what follows `--` is no option. A value
that stands by itself does not start with a hyphen. Each option is given at most once, save for
`-f`.
-/

namespace CircuitCode

-- Powers are those of the core library, whatever is imported besides.
attribute [local instance (2000)] instPowNat

/-- Options that have a value. -/
inductive ValueOption where
  /-- The decimals of parameter values. -/
  | decimals
  /-- A frequency at which the impedance is computed. -/
  | frequency
deriving DecidableEq

/-- Options without a value. -/
inductive FlagOption where
  /-- Whether the impedance is written as an expression. -/
  | symbolic
  /-- Whether values stand in the place of parameters in the expression. -/
  | substitute
deriving DecidableEq

/-- What a single argument is. -/
inductive Argument where
  | code (text : String)
  | endOfOptions
  | value (option : ValueOption) (attached : Option String)
  | flag (option : FlagOption)
  | unknown
deriving DecidableEq

namespace Argument

/-- An argument after two hyphens. -/
def ofLong (text : List Char) : Argument :=
  let name := String.ofList (text.takeWhile fun c => c != '=')
  let attached :=
    match text.dropWhile fun c => c != '=' with
    | _ :: after => some (String.ofList after)
    | [] => none
  if name = "decimals" then value .decimals attached
  else if name = "frequency" then value .frequency attached
  else if name = "symbolic" ∧ attached.isNone then flag .symbolic
  else if name = "substitute" ∧ attached.isNone then flag .substitute
  else unknown

/-- An argument after a single hyphen: a letter, perhaps with a value. -/
def ofShort (letter : Char) (rest : List Char) : Argument :=
  let attached :=
    match rest with
    | [] => none
    | '=' :: after => some (String.ofList after)
    | _ => some (String.ofList rest)
  if letter = 'd' then value .decimals attached
  else if letter = 'f' then value .frequency attached
  else unknown

def ofString (text : String) : Argument :=
  match text.toList with
  | ['-', '-'] => endOfOptions
  | '-' :: '-' :: long => ofLong long
  | '-' :: letter :: rest => ofShort letter rest
  | _ => code text

end Argument

/-- What the arguments have said so far. -/
structure Arguments where
  code : Option String := none
  decimals : Option Nat := none
  frequencies : List Number := []
  symbolic : Bool := false
  substitute : Bool := false

namespace Arguments

/-- A count that fits in 64 bits, with an optional plus sign. -/
def count? (text : String) : Option Nat :=
  match Number.readInteger text.toList with
  | some n => if text.toList.head? = some '-' ∨ 2 ^ (64 : Nat) ≤ n then none else some n.toNat
  | none => none

def setCode (a : Arguments) (text : String) : Option Arguments :=
  if a.code.isSome then none else some { a with code := some text }

def setValue (a : Arguments) (option : ValueOption) (text : String) : Option Arguments :=
  match option with
  | .decimals =>
    if a.decimals.isSome then none
    else (count? text).map fun count => { a with decimals := some count }
  | .frequency =>
    (Number.ofText? text).map fun f => { a with frequencies := a.frequencies ++ [f] }

def setFlag (a : Arguments) (option : FlagOption) : Option Arguments :=
  match option with
  | .symbolic => if a.symbolic then none else some { a with symbolic := true }
  | .substitute => if a.substitute then none else some { a with substitute := true }

/-- Takes in the arguments one after the other. -/
def read : List String → Arguments → Option Arguments
  | [], a => some a
  | text :: rest, a =>
    match Argument.ofString text with
    | .code text => (a.setCode text).bind (read rest)
    | .endOfOptions => rest.foldlM setCode a
    | .flag option => (a.setFlag option).bind (read rest)
    | .value option (some value) => (a.setValue option value).bind (read rest)
    | .value option none =>
      match rest with
      | value :: rest =>
        match Argument.ofString value with
        | .code value => (a.setValue option value).bind (read rest)
        | _ => none
      | [] => none
    | .unknown => none

end Arguments

/-- What the command is asked for. -/
structure Request where
  code : String
  decimals : Nat
  frequencies : List Number
  symbolic : Bool
  substitute : Bool

/-- The request that the arguments make. Circuit code is required, and values can be substituted
    only in an expression that is asked for. -/
def Request.ofArguments? (arguments : List String) : Option Request :=
  match Arguments.read arguments {} with
  | none => none
  | some a =>
    match a.code with
    | none => none
    | some code =>
      if a.substitute && !a.symbolic then none
      else
        some ⟨code, a.decimals.getD Circuit.defaultDecimals, a.frequencies, a.symbolic,
          a.substitute⟩

end CircuitCode
