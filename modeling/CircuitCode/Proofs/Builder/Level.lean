import CircuitCode.Builder.Script

/-!
# The level of a scope

A script stays on its level if every close in it closes a scope that was opened earlier in the
same script, and likewise for the bodies of its scopes (`Step.ClosesOwnAll`). Such a script leaves
the scopes around it alone. All it does to the scope that it runs in is to add the nodes of its own
level (`Step.nodesAt`): the scopes that it has left open stand inside that one
(`Step.exists_runAll_eq_within`).
-/

namespace CircuitCode

variable {β : Type}

/-- The connection of the nodes in a scope, if there are enough of them. -/
def Scope.joined? (scope : Scope) : Option (Node Element) :=
  (Connection.ofChildren scope.kind scope.nodes).toOption.map Connection.toNode

/-- The scope with further nodes. -/
def Scope.append (scope : Scope) (nodes : List (Node Element)) : Scope :=
  { scope with nodes := scope.nodes ++ nodes }

theorem Scope.append_nil (scope : Scope) : scope.append [] = scope := by
  simp [append]

theorem Scope.append_append (scope : Scope) (nodes nodes' : List (Node Element)) :
    (scope.append nodes).append nodes' = scope.append (nodes ++ nodes') := by
  simp [append]

namespace Builder

/-- The builder with a scope open inside its own, and others open inside that one. -/
def within (b : Builder) (scope : Scope) (inner : List Scope) : Builder :=
  ⟨b.outermost, inner ++ scope :: b.nested⟩

variable (b : Builder) (scope : Scope) (inner : List Scope)

theorem openScope_eq_within (kind : ConnectionKind) :
    b.openScope kind = b.within ⟨kind, []⟩ [] := rfl

theorem depth_within : (b.within scope inner).depth = b.depth + 1 + inner.length := by
  simp [within, depth]
  omega

theorem depth_within_eq_iff : (b.within scope inner).depth = b.depth + 1 ↔ inner = [] := by
  rw [depth_within, Nat.add_eq_left, List.length_eq_zero_iff]

theorem add_within_nil (node : Node Element) :
    (b.within scope []).add node = b.within (scope.append [node]) [] := rfl

theorem add_within_cons (innermost : Scope) (node : Node Element) :
    (b.within scope (innermost :: inner)).add node =
      b.within scope (innermost.append [node] :: inner) := rfl

/-- Leaving a scope drops what is open inside it. -/
theorem takeScope_within : (b.within scope inner).takeScope (b.depth + 1) = (b, some scope) := by
  have hdrop : (inner ++ scope :: b.nested).drop
      ((inner ++ scope :: b.nested).length - (b.depth + 1)) = scope :: b.nested := by
    rw [List.length_append, List.length_cons, ← depth, Nat.add_sub_cancel, List.drop_left]
  unfold takeScope within
  simp only [hdrop]

/-- Leaving a scope completes the one that is taken out, unless the body failed. -/
theorem leaveScope_eq (depth : Nat) (body : Except Error Unit) :
    b.leaveScope depth body =
      match b.takeScope (depth + 1), body with
      | (rest, _), .error e => (rest, .error e)
      | (rest, none), .ok () => (rest, .error (.builder .noOpenScope))
      | (rest, some own), .ok () =>
        ((rest.complete own).1, (rest.complete own).2.mapError .builder) := by
  unfold leaveScope
  rcases b.takeScope (depth + 1) with ⟨rest, _ | own⟩ <;> cases body <;> rfl

/-- Completing a scope adds its connection to the builder, if there is one. -/
theorem complete_fst : (b.complete scope).1 = scope.joined?.elim b b.add := by
  unfold complete Scope.joined?
  cases Connection.ofChildren scope.kind scope.nodes <;> rfl

/-- A scope is completed with its connection, or not at all. -/
theorem complete_cases :
    (∃ c, Connection.ofChildren scope.kind scope.nodes = .ok c ∧
        b.complete scope = (b.add c.toNode, .ok ())) ∨
      ∃ cause, b.complete scope = (b, .error (.connection cause)) := by
  unfold complete
  cases Connection.ofChildren scope.kind scope.nodes with
  | ok c => exact .inl ⟨c, rfl, rfl⟩
  | error cause => exact .inr ⟨cause, rfl⟩

/-- What a step leaves of a scope in the builder: it has the node that the step adds, unless other
    scopes are open inside it. -/
def Gains (node : Option (Node Element)) (after : Builder) : Prop :=
  ∃ inner, after = b.within (scope.append (if inner = [] then node.toList else [])) inner

variable {b scope}

theorem gains_none (inner : List Scope) : b.Gains scope none (b.within scope inner) := by
  refine ⟨inner, ?_⟩
  rw [Option.toList_none, ite_self, Scope.append_nil]

theorem gains_elim_add (inner : List Scope) (node : Option (Node Element)) :
    b.Gains scope node (node.elim (b.within scope inner) (b.within scope inner).add) := by
  cases node with
  | none => exact gains_none inner
  | some node =>
    cases inner with
    | nil => exact ⟨[], b.add_within_nil scope node⟩
    | cons innermost inner =>
      refine ⟨innermost.append [node] :: inner, ?_⟩
      rw [if_neg (List.cons_ne_nil _ _), Scope.append_nil]
      exact b.add_within_cons scope inner innermost node

/-- The nodes that a scope has gained are those that are added at its depth. -/
theorem Gains.exists_eq_within {node : Option (Node Element)} {after : Builder}
    (h : b.Gains scope node after) :
    ∃ inner, after =
      b.within (scope.append (if after.depth = b.depth + 1 then node.toList else [])) inner := by
  obtain ⟨inner, rfl⟩ := h
  refine ⟨inner, ?_⟩
  simp only [depth_within_eq_iff]

end Builder

namespace Step

/-- Whether a step ends the script that it is in. -/
def ends (step : Step β) (b : Builder) : Bool := step.isRequired && !(step.run b).outcome.isOk

theorem runAll_cons (step : Step β) (steps : List (Step β)) (b : Builder) :
    runAll (step :: steps) b =
      if step.ends b then step.run b
      else
        let rest := runAll steps (step.run b).builder
        ⟨rest.builder, (step.run b).events ++ rest.events, rest.outcome⟩ := by
  rw [runAll]
  unfold ends
  cases step.isRequired with
  | false => rfl
  | true =>
    cases h : (step.run b).outcome with
    | ok u => rfl
    | error e =>
      have hrun : step.run b = ⟨(step.run b).builder, (step.run b).events, .error e⟩ := by rw [← h]
      exact hrun.symm

mutual

/-- In a script that began at the given depth, the step closes no scope but one that the script has
    opened. The body of a scope begins inside that scope. -/
def ClosesOwn : Step β → Nat → Builder → Prop
  | close, depth, b => depth < b.depth
  | scope kind body, _, b => ClosesOwnAll body (b.depth + 1) (b.openScope kind)
  | required step, depth, b => step.ClosesOwn depth b
  | add _, _, _ => True
  | openScope _, _, _ => True
  | observe _, _, _ => True

/-- Every close that the script comes to, also inside its scopes, closes a scope that was opened
    earlier in the same script or body. -/
def ClosesOwnAll : List (Step β) → Nat → Builder → Prop
  | [], _, _ => True
  | step :: steps, depth, b =>
    step.ClosesOwn depth b ∧
      (step.ends b = false → ClosesOwnAll steps depth (step.run b).builder)

end

mutual

/-- The node that a step adds to the scope that is the innermost one after it. A scope adds the
    connection of the nodes of its own level. -/
def node? : Step β → Builder → Option (Node Element)
  | add node, _ => some node
  | close, b => b.nested.head?.bind Scope.joined?
  | scope kind body, b =>
    match (runAll body (b.openScope kind)).outcome with
    | .ok () => Scope.joined? ⟨kind, nodesAt body (b.depth + 1) (b.openScope kind)⟩
    | .error _ => none
  | required step, b => step.node? b
  | openScope _, _ => none
  | observe _, _ => none

/-- The nodes that a script adds while as many scopes are open as the depth says. -/
def nodesAt : List (Step β) → Nat → Builder → List (Node Element)
  | [], _, _ => []
  | step :: steps, depth, b =>
    let after := (step.run b).builder
    (if after.depth = depth then (step.node? b).toList else []) ++
      if step.ends b then [] else nodesAt steps depth after

end

/-- Leaving a scope after its body completes it, unless the body failed. -/
theorem run_scope_eq_within {kind : ConnectionKind} {body : List (Step β)} {b : Builder}
    {own : Scope} {inner : List Scope}
    (h : (runAll body (b.openScope kind)).builder = b.within own inner) :
    ((scope kind body).run b).builder =
        (match (runAll body (b.openScope kind)).outcome with
        | .ok () => (b.complete own).1
        | .error _ => b) ∧
      ((scope kind body).run b).outcome =
        match (runAll body (b.openScope kind)).outcome with
        | .ok () => (b.complete own).2.mapError .builder
        | .error e => .error e := by
  rw [run]
  dsimp only
  rw [h, Builder.leaveScope_eq, Builder.takeScope_within]
  cases (runAll body (b.openScope kind)).outcome <;> exact ⟨rfl, rfl⟩

mutual

/-- A step that closes its own scopes only leaves the builder as it is around them. -/
theorem gains_run (step : Step β) {b before : Builder} {own : Scope} {inner : List Scope}
    (hbefore : before = b.within own inner) (h : step.ClosesOwn (b.depth + 1) before) :
    b.Gains own (step.node? before) (step.run before).builder := by
  subst hbefore
  cases step with
  | add node => exact Builder.gains_elim_add inner (some node)
  | openScope kind => exact Builder.gains_none (⟨kind, []⟩ :: inner)
  | close =>
    cases inner with
    | nil => exact absurd h (Nat.lt_irrefl _)
    | cons innermost inner =>
      show b.Gains own innermost.joined? ((b.within own inner).complete innermost).1
      rw [Builder.complete_fst]
      exact Builder.gains_elim_add inner _
  | scope kind body =>
    obtain ⟨left, hbody⟩ := exists_runAll_eq_within body (Builder.openScope_eq_within _ kind) h
    rw [(run_scope_eq_within hbody).1, node?]
    cases (runAll body ((b.within own inner).openScope kind)).outcome with
    | ok u =>
      show b.Gains own _ ((b.within own inner).complete _).1
      rw [Builder.complete_fst]
      exact Builder.gains_elim_add inner _
    | error e => exact Builder.gains_none inner
  | observe look => exact Builder.gains_none inner
  | required step => exact gains_run step rfl h

/-- A script that stays on its level adds the nodes of that level to the scope that it runs in. It
    leaves scopes open at most inside that one, and nothing else is changed. -/
theorem exists_runAll_eq_within (steps : List (Step β)) {b before : Builder} {own : Scope}
    {inner : List Scope} (hbefore : before = b.within own inner)
    (h : ClosesOwnAll steps (b.depth + 1) before) :
    ∃ left, (runAll steps before).builder =
      b.within (own.append (nodesAt steps (b.depth + 1) before)) left := by
  cases steps with
  | nil =>
    refine ⟨inner, ?_⟩
    rw [nodesAt, Scope.append_nil]
    exact hbefore
  | cons step steps =>
    obtain ⟨hstep, hsteps⟩ := h
    obtain ⟨inner', hafter⟩ := (gains_run step hbefore hstep).exists_eq_within
    rw [runAll_cons, nodesAt]
    cases hends : step.ends before with
    | true =>
      refine ⟨inner', ?_⟩
      simpa using hafter
    | false =>
      obtain ⟨left, hrest⟩ := exists_runAll_eq_within steps hafter (hsteps hends)
      refine ⟨left, ?_⟩
      rw [Scope.append_append] at hrest
      exact hrest

end

end Step

end CircuitCode
