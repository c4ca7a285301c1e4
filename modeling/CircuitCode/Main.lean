import CircuitCode.CommandLine.Report

/-!
# The command

Prints what is known of a circuit that is given as circuit code.
-/

open CircuitCode

def main (arguments : List String) : IO UInt32 := do
  let outcome := CommandOutcome.ofArguments arguments
  IO.print outcome.output
  IO.eprint outcome.diagnostic
  return outcome.exitCode.toUInt32
