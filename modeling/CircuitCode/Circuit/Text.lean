import CircuitCode.Circuit.Basic
import CircuitCode.Element.Text

/-!
# Circuit code

The text of a circuit: a series is written in square brackets and a parallel connection in round
ones, and the children stand between them without a separator.
-/

namespace CircuitCode

/-- The brackets around a connection. -/
def ConnectionKind.brackets : ConnectionKind → String × String
  | series => ("[", "]")
  | parallel => ("(", ")")

/-- The text of a connection from the texts of its children. -/
def ConnectionKind.enclose (kind : ConnectionKind) (children : List String) : String :=
  kind.brackets.1 ++ String.join children ++ kind.brackets.2

/-- The text of a tree, bare or with a number of decimals. -/
def Node.text (decimals : Option Nat) : Node Element → String :=
  fold (fun e => e.text decimals) ConnectionKind.enclose

def Connection.text (c : Connection Element) (decimals : Option Nat) : String :=
  c.toNode.text decimals

namespace Circuit

/-- The circuit code of a circuit, bare or with parameter blocks. -/
def code (c : Circuit) (decimals : Option Nat) : String := c.root.text decimals

/-- The decimals of parameter values where none are asked for. -/
def defaultDecimals : Nat := 6

end Circuit

end CircuitCode
