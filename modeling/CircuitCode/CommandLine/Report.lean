import CircuitCode.Circuit.Impedance
import CircuitCode.CommandLine.Request
import CircuitCode.Complex.Machine
import CircuitCode.Expr.Text
import CircuitCode.Number.Text
import CircuitCode.Parsing.Circuit

/-!
# Output of the command

For a circuit the command prints its bare code, its code with parameters, a table of impedances if
there are frequencies, and the expression for the impedance if it is asked for.
-/

namespace CircuitCode

/-- The text with spaces before it up to a width. -/
def alignRight (width : Nat) (text : String) : String :=
  String.ofList (List.replicate (width - text.length) ' ') ++ text

namespace Request

/-- A row of the table of impedances. -/
def tableRow (frequency re im : String) : String :=
  alignRight 14 frequency ++ " " ++ alignRight 16 re ++ " " ++ alignRight 16 im

/-- The row for the impedance at a frequency. -/
def impedanceRow (circuit : Circuit) (frequency : Number) : String :=
  let z : MachineComplex := circuit.impedance (MachineReal.ofNumber frequency)
  tableRow (frequency.scientificTo 6) (z.re.toNumber.scientificTo 8)
    (z.im.toNumber.scientificTo 8)

def table (r : Request) (circuit : Circuit) : List String :=
  if r.frequencies.isEmpty then []
  else
    tableRow "f [Hz]" "Re(Z) [ohm]" "Im(Z) [ohm]" :: r.frequencies.map (impedanceRow circuit)

def formula (r : Request) (circuit : Circuit) : List String :=
  if r.symbolic then
    let options : ExpressionOptions := { substitute := r.substitute }
    ["Z(" ++ options.frequency ++ ") = " ++ (circuit.expression options).text]
  else []

/-- The lines that are printed for a circuit. -/
def lines (r : Request) (circuit : Circuit) : List String :=
  [circuit.code none, circuit.code (some r.decimals)] ++ r.table circuit ++ r.formula circuit

end Request

/-- What comes of running the command. -/
inductive CommandOutcome where
  | printed (lines : List String)
  | notCircuitCode (cause : ParseError)
  | wrongUsage

namespace CommandOutcome

def exitCode : CommandOutcome → Nat
  | printed _ => 0
  | notCircuitCode _ => 1
  | wrongUsage => 2

/-- The text on standard output. -/
def output : CommandOutcome → String
  | printed lines => String.join (lines.map fun line => line ++ "\n")
  | _ => ""

/-- The text on standard error. -/
def diagnostic : CommandOutcome → String
  | printed _ => ""
  | notCircuitCode cause => cause.message ++ "\n"
  | wrongUsage =>
    "usage: CODE [-d DECIMALS] [-f HZ]... [--symbolic [--substitute]]\n"

/-- Runs the command on its arguments. -/
def ofArguments (arguments : List String) : CommandOutcome :=
  match Request.ofArguments? arguments with
  | none => wrongUsage
  | some request =>
    match parse request.code with
    | .error cause => notCircuitCode cause
    | .ok circuit => printed (request.lines circuit)

end CommandOutcome

end CircuitCode
