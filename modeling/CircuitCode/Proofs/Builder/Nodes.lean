import CircuitCode.Builder.Script

/-!
# The nodes of a builder

A property of nodes that joining keeps holds of all nodes of a builder if it holds of those that a
script adds, however the scopes are opened, closed and dropped on the way (`Builder.All.runAll`).
-/

namespace CircuitCode

variable {β : Type} {p : Node Element → Prop}

namespace Step

mutual

/-- The nodes that a step adds. -/
def nodes : Step β → List (Node Element)
  | add node => [node]
  | scope _ body => nodesOf body
  | required step => step.nodes
  | _ => []

/-- The nodes that a script adds. -/
def nodesOf : List (Step β) → List (Node Element)
  | [] => []
  | step :: steps => step.nodes ++ nodesOf steps

end

end Step

/-- A property that a connection has if its nodes have it before they are joined. -/
def Joins (p : Node Element → Prop) : Prop :=
  ∀ (kind : ConnectionKind) (nodes : List (Node Element)) (c : Connection Element),
    (∀ node ∈ nodes, p node) → Connection.ofChildren kind nodes = .ok c → p c.toNode

namespace Builder

/-- A property holds of all nodes of all scopes. -/
def All (p : Node Element → Prop) (b : Builder) : Prop :=
  (∀ node ∈ b.outermost.nodes, p node) ∧ ∀ scope ∈ b.nested, ∀ node ∈ scope.nodes, p node

theorem all_start (kind : ConnectionKind) : (start kind).All p := ⟨nofun, nofun⟩

theorem All.add {b : Builder} (hb : b.All p) {node : Node Element} (hnode : p node) :
    (b.add node).All p := by
  obtain ⟨houtermost, hnested⟩ := hb
  have hadd {scope : Scope} (h : ∀ other ∈ scope.nodes, p other) :
      ∀ other ∈ (scope.add node).nodes, p other :=
    List.forall_mem_append.mpr ⟨h, List.forall_mem_singleton.mpr hnode⟩
  unfold Builder.add
  split
  · exact ⟨hadd houtermost, hnested⟩
  · next inner outer hscopes =>
    rw [hscopes, List.forall_mem_cons] at hnested
    exact ⟨houtermost, List.forall_mem_cons.mpr ⟨hadd hnested.1, hnested.2⟩⟩

theorem All.openScope {b : Builder} (hb : b.All p) (kind : ConnectionKind) :
    (b.openScope kind).All p :=
  ⟨hb.1, List.forall_mem_cons.mpr ⟨nofun, hb.2⟩⟩

theorem All.complete (hjoin : Joins p) {b : Builder} (hb : b.All p) {scope : Scope}
    (hscope : ∀ node ∈ scope.nodes, p node) : (b.complete scope).1.All p := by
  unfold Builder.complete
  split
  · next c hc => exact hb.add (hjoin _ _ c hscope hc)
  · exact hb

theorem All.close (hjoin : Joins p) {b : Builder} (hb : b.All p) : b.close.1.All p := by
  unfold Builder.close
  split
  · exact hb
  · next inner outer hscopes =>
    have hnested := hb.2
    rw [hscopes, List.forall_mem_cons] at hnested
    have hrest : ({ b with nested := outer } : Builder).All p := ⟨hb.1, hnested.2⟩
    exact hrest.complete hjoin hnested.1

/-- Scopes that are taken out or dropped leave the others as they are. -/
theorem All.takeScope {b : Builder} (hb : b.All p) (count : Nat) :
    (b.takeScope count).1.All p ∧
      ∀ scope, (b.takeScope count).2 = some scope → ∀ node ∈ scope.nodes, p node := by
  have hkept : ∀ scope ∈ b.nested.drop (b.nested.length - count), ∀ node ∈ scope.nodes, p node :=
    fun scope hscope => hb.2 scope (List.mem_of_mem_drop hscope)
  unfold Builder.takeScope
  split
  · exact ⟨⟨hb.1, nofun⟩, nofun⟩
  · next inner outer hscopes =>
    rw [hscopes, List.forall_mem_cons] at hkept
    refine ⟨⟨hb.1, hkept.2⟩, fun scope hscope => ?_⟩
    obtain rfl := Option.some.inj hscope
    exact hkept.1

theorem All.leaveScope (hjoin : Joins p) {b : Builder} (hb : b.All p) (depth : Nat)
    (body : Except Error Unit) : (b.leaveScope depth body).1.All p := by
  obtain ⟨hrest, htaken⟩ := hb.takeScope (depth + 1)
  unfold Builder.leaveScope
  split
  · next b' taken e heq =>
    rw [heq] at hrest
    exact hrest
  · next b' heq =>
    rw [heq] at hrest
    exact hrest
  · next b' scope heq =>
    rw [heq] at hrest htaken
    exact hrest.complete hjoin (htaken scope rfl)

mutual

theorem All.run (hjoin : Joins p) (step : Step β) {b : Builder} (hb : b.All p)
    (hnodes : ∀ node ∈ step.nodes, p node) : (step.run b).builder.All p := by
  cases step with
  | add node => exact hb.add (hnodes node List.mem_cons_self)
  | openScope kind => exact hb.openScope kind
  | close => exact hb.close hjoin
  | scope kind body =>
    have hbody := All.runAll hjoin body (hb.openScope kind) hnodes
    exact hbody.leaveScope hjoin _ _
  | observe look => exact hb
  | required step => exact All.run hjoin step hb hnodes

/-- What holds of the nodes of a builder and of those that a script adds holds of all nodes after
    the script, if joining keeps it. -/
theorem All.runAll (hjoin : Joins p) (steps : List (Step β)) {b : Builder} (hb : b.All p)
    (hnodes : ∀ node ∈ Step.nodesOf steps, p node) : (Step.runAll steps b).builder.All p := by
  cases steps with
  | nil => exact hb
  | cons step steps =>
    obtain ⟨hstep, hsteps⟩ := List.forall_mem_append.mp hnodes
    have hfirst := All.run hjoin step hb hstep
    unfold Step.runAll
    dsimp only
    split
    · exact hfirst
    · exact All.runAll hjoin steps hfirst hsteps

end

/-- A finished circuit is made of nodes of the builder. -/
theorem All.finish (hjoin : Joins p) {b : Builder} (hb : b.All p) {c : Circuit}
    (h : b.finish = .ok c) :
    ∃ root : Connection Element, p root.toNode ∧ c = .ofConnection root := by
  unfold Builder.finish at h
  split at h
  · split at h
    · next root hroot =>
      cases h
      exact ⟨root, hjoin _ _ root hb.1 hroot, rfl⟩
    · cases h
  · cases h

end Builder

end CircuitCode
