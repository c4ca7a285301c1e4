import CircuitCode.Error

/-!
# Scripts of a builder

A script is a list of steps on a builder. One of the steps is a scope with a body: it opens a
scope, runs the body and then closes the scope. The body may itself open and close scopes in any
order, so what the scope closes in the end need not be what it opened. `Step.runAll` gives the
builder after a script, the events on the way and the error that ended the script, if one did.
-/

namespace CircuitCode

/-- One step of a script. -/
inductive Step (β : Type) where
  | add (node : Node Element)
  | openScope (kind : ConnectionKind)
  | close
  | scope (kind : ConnectionKind) (body : List (Step β))
  /-- Looks at the builder and leaves it as it is. The look may fail. -/
  | observe (look : Builder → Except Error β)
  /-- A step whose failure ends the body that it is in. Other failures are passed over. -/
  | required (step : Step β)

/-- What a step did: the builder after it, and its error or what it saw. -/
structure Event (β : Type) where
  builder : Builder
  result : Except Error (Option β)

/-- What a script did. -/
structure Run (β : Type) where
  builder : Builder
  /-- The events in order; those inside a scope precede that of the scope. -/
  events : List (Event β)
  outcome : Except Error Unit

namespace Builder

/-- Ends a scope that was opened at the given depth, after its body. Scopes that the body left open
    are dropped. If the body failed, the scope is dropped too. -/
def leaveScope (b : Builder) (depth : Nat) (body : Except Error Unit) :
    Builder × Except Error Unit :=
  match b.takeScope (depth + 1), body with
  | (b, _), .error e => (b, .error e)
  | (b, none), .ok () => (b, .error (.builder .noOpenScope))
  | (b, some scope), .ok () =>
    let (b, outcome) := b.complete scope
    (b, outcome.mapError .builder)

end Builder

namespace Step

variable {β : Type}

/-- A step that does nothing but fail. -/
def fail (e : Error) : Step β := observe fun _ => .error e

/-- Whether a failure of the step ends the body that it is in. -/
def isRequired : Step β → Bool
  | required _ => true
  | _ => false

/-- The run of a step that leaves the given builder. -/
def single (b : Builder) (result : Except Error (Option β)) : Run β :=
  ⟨b, [⟨b, result⟩], result.map fun _ => ()⟩

mutual

/-- What a step does. -/
def run : Step β → Builder → Run β
  | add node, b => single (b.add node) (.ok none)
  | openScope kind, b => single (b.openScope kind) (.ok none)
  | close, b =>
    let (b, outcome) := b.close
    single b ((outcome.mapError .builder).map fun _ => none)
  | scope kind body, b =>
    let inner := runAll body (b.openScope kind)
    let (b, outcome) := inner.builder.leaveScope b.depth inner.outcome
    ⟨b, inner.events ++ [⟨b, outcome.map fun _ => none⟩], outcome⟩
  | observe look, b => single b ((look b).map some)
  | required step, b => step.run b

/-- What a script does. -/
def runAll : List (Step β) → Builder → Run β
  | [], b => ⟨b, [], .ok ()⟩
  | step :: steps, b =>
    let first := step.run b
    match step.isRequired, first.outcome with
    | true, .error e => ⟨first.builder, first.events, .error e⟩
    | _, _ =>
      let rest := runAll steps first.builder
      ⟨rest.builder, first.events ++ rest.events, rest.outcome⟩

end

end Step

end CircuitCode
