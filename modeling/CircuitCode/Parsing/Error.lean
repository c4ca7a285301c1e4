import CircuitCode.Connection.Basic
import CircuitCode.Element.Basic
import CircuitCode.Token.Basic

/-!
# Errors in circuit code

Each way in which a text can fail to be circuit code, with the position in bytes at which this
shows.
-/

namespace CircuitCode

/-- What is being read when a text ends too early. -/
inductive ParseContext where
  | circuit
  | connection
  | parameterBlock
  | parameterDefinition
deriving DecidableEq, Repr

def ParseContext.name : ParseContext → String
  | circuit => "circuit"
  | connection => "connection"
  | parameterBlock => "parameter block"
  | parameterDefinition => "parameter definition"

/-- Why a text is not circuit code. -/
inductive ParseError where
  /-- Brackets with nothing in them. -/
  | connectionWithoutElements (position : Nat)
  /-- Round brackets around fewer than two branches. -/
  | insufficientBranches (position branches : Nat)
  | insufficientTokens (position : Nat) (context : ParseContext)
  | unexpectedToken (position : Nat) (token : String)
  | invalidSymbol (position : Nat) (symbol : String)
  | duplicateParameter (position : Nat) (name : String)
  /-- Something else where a number should be; nothing was found at the end of the text. -/
  | expectedNumber (position : Nat) (found : Option String)
  /-- An equals sign without a name before it. -/
  | expectedIdentifier (position : Nat)
  | unknownParameter (position : Nat) (symbol name : String)
  | lowerLimit (position : Nat) (name : String) (value lower : Number)
  | upperLimit (position : Nat) (name : String) (value upper : Number)
  | tooManyParameters (position : Nat) (symbol : String) (expected : Nat)
deriving DecidableEq

namespace ParseError

/-- The number of bytes before the place of the error. -/
def position : ParseError → Nat
  | connectionWithoutElements position
  | insufficientBranches position _
  | insufficientTokens position _
  | unexpectedToken position _
  | invalidSymbol position _
  | duplicateParameter position _
  | expectedNumber position _
  | expectedIdentifier position
  | unknownParameter position _ _
  | lowerLimit position _ _ _
  | upperLimit position _ _ _
  | tooManyParameters position _ _ => position

/-- The name of the sort of error, which does not say where it is or what was found there. -/
def kindName : ParseError → String
  | connectionWithoutElements _ => "ConnectionWithoutElements"
  | insufficientBranches _ _ => "InsufficientElementsInParallelConnection"
  | insufficientTokens _ _ => "InsufficientTokens"
  | unexpectedToken _ _ => "UnexpectedToken"
  | invalidSymbol _ _ => "InvalidElementSymbol"
  | duplicateParameter _ _ => "DuplicateParameterDefinition"
  | expectedNumber _ _ => "ExpectedNumericValue"
  | expectedIdentifier _ => "ExpectedParameterIdentifier"
  | unknownParameter _ _ _ => "InvalidParameterDefinition"
  | lowerLimit _ _ _ _ => "InvalidParameterLowerLimit"
  | upperLimit _ _ _ _ => "InvalidParameterUpperLimit"
  | tooManyParameters _ _ _ => "TooManyParameterDefinitions"

def message : ParseError → String
  | connectionWithoutElements position =>
    "connection at position " ++ toString position ++ " contains no elements"
  | insufficientBranches position branches =>
    "parallel connection at position " ++ toString position ++ " has " ++ toString branches ++
      " branch(es), expected at least 2"
  | insufficientTokens position context =>
    "input ended at position " ++ toString position ++ " while parsing " ++ context.name
  | unexpectedToken position token =>
    "unexpected token '" ++ token ++ "' at position " ++ toString position
  | invalidSymbol position symbol =>
    "invalid element symbol '" ++ symbol ++ "' at position " ++ toString position
  | duplicateParameter position name =>
    "parameter '" ++ name ++ "' defined more than once at position " ++ toString position
  | expectedNumber position found =>
    "expected a numeric value at position " ++ toString position ++ ", found " ++
      (match found with
        | some text => "'" ++ text ++ "'"
        | none => "end of input")
  | expectedIdentifier position =>
    "expected a parameter identifier before '=' at position " ++ toString position
  | unknownParameter position symbol name =>
    "'" ++ symbol ++ "' has no parameter named '" ++ name ++ "' (position " ++
      toString position ++ ")"
  | lowerLimit position name value lower =>
    "lower limit " ++ lower.plain ++ " of parameter '" ++ name ++ "' exceeds its value " ++
      value.plain ++ " (position " ++ toString position ++ ")"
  | upperLimit position name value upper =>
    "upper limit " ++ upper.plain ++ " of parameter '" ++ name ++ "' is below its value " ++
      value.plain ++ " (position " ++ toString position ++ ")"
  | tooManyParameters position symbol expected =>
    "'" ++ symbol ++ "' accepts " ++ toString expected ++
      " parameter(s), too many given at position " ++ toString position

/-- A token that may not stand where it does. -/
def ofToken (token : Token) : ParseError := unexpectedToken token.position token.text

/-- Brackets opened at `position` whose contents cannot be joined. -/
def ofConnectionError (position : Nat) : ConnectionError → ParseError
  | .empty _ => connectionWithoutElements position
  | .insufficientBranches count => insufficientBranches position count

/-- A definition at `position` that the element refuses. Limits that cross leave the value outside
    at least one of them, and that one is named, the lower one first. -/
def ofElementError (position : Nat) (value : Number) : ElementError → ParseError
  | .limitOrder name lower upper =>
    if value < lower then lowerLimit position name value lower
    else upperLimit position name value upper
  | .lowerLimit name value lower => lowerLimit position name value lower
  | .upperLimit name value upper => upperLimit position name value upper
  | .unknownParameter symbol name => unknownParameter position symbol name
  | cause => expectedNumber position (some cause.message)

end ParseError

end CircuitCode
