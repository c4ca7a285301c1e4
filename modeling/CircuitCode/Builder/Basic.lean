import CircuitCode.Circuit.Basic

/-!
# Building circuits

A builder collects nodes in a connection that is not complete yet, and in further connections that
are opened inside it. A connection is checked when it is completed, never when a node is added.
-/

namespace CircuitCode

/-- Why a step of building a circuit fails. -/
inductive BuilderError where
  | connection (cause : ConnectionError)
  /-- The circuit is finished while nested scopes are open. -/
  | unclosedScopes (count : Nat)
  | noOpenScope
deriving DecidableEq, Repr

def BuilderError.message : BuilderError → String
  | connection cause => cause.message
  | unclosedScopes count => toString count ++ " nested scope(s) still open"
  | noOpenScope => "no nested scope to close"

/-- A connection that nodes are added to. -/
structure Scope where
  kind : ConnectionKind
  nodes : List (Node Element)

def Scope.add (scope : Scope) (node : Node Element) : Scope :=
  { scope with nodes := scope.nodes ++ [node] }

/-- A circuit under construction. -/
structure Builder where
  outermost : Scope
  /-- The scopes that are open inside the outermost one, the innermost first. -/
  nested : List Scope

namespace Builder

/-- A builder whose outermost connection has the given kind. -/
def start (kind : ConnectionKind) : Builder := ⟨⟨kind, []⟩, []⟩

/-- The number of open nested scopes. -/
def depth (b : Builder) : Nat := b.nested.length

/-- Adds a node to the innermost scope. -/
def add (b : Builder) (node : Node Element) : Builder :=
  match b.nested with
  | [] => { b with outermost := b.outermost.add node }
  | inner :: outer => { b with nested := inner.add node :: outer }

/-- Opens a scope inside the innermost one. -/
def openScope (b : Builder) (kind : ConnectionKind) : Builder :=
  { b with nested := ⟨kind, []⟩ :: b.nested }

/-- Completes a scope that has been taken out of the builder and adds its connection to what is
    now the innermost scope. If it cannot be completed, its nodes are lost. -/
def complete (b : Builder) (scope : Scope) : Builder × Except BuilderError Unit :=
  match Connection.ofChildren scope.kind scope.nodes with
  | .ok connection => (b.add connection.toNode, .ok ())
  | .error cause => (b, .error (.connection cause))

/-- Closes the innermost nested scope. -/
def close (b : Builder) : Builder × Except BuilderError Unit :=
  match b.nested with
  | [] => (b, .error .noOpenScope)
  | inner :: outer => complete { b with nested := outer } inner

/-- The innermost nested scope once all but the outermost `count` of them are dropped, and the
    builder without it. -/
def takeScope (b : Builder) (count : Nat) : Builder × Option Scope :=
  match b.nested.drop (b.nested.length - count) with
  | [] => ({ b with nested := [] }, none)
  | inner :: outer => ({ b with nested := outer }, some inner)

/-- The circuit that has been built. -/
def finish (b : Builder) : Except BuilderError Circuit :=
  if b.nested.isEmpty then
    match Connection.ofChildren b.outermost.kind b.outermost.nodes with
    | .ok connection => .ok (.ofConnection connection)
    | .error cause => .error (.connection cause)
  else .error (.unclosedScopes b.depth)

end Builder

end CircuitCode
