import CircuitCode.Proofs.Builder.Level

/-!
# Operations of a run

A run changes the builder by one operation at a time. `Step.operationsOf` lists the operations of a
run in order, those inside scopes among them. The builder after the run is what they make of the
builder before it (`Step.builder_runAll`), and whatever is seen on the way is seen after some of
them (`Step.exists_prefix_of_mem_events`).
-/

namespace CircuitCode

variable {β : Type}

/-- A change of a builder. A scope with a body is opened by one operation and left by another. -/
inductive Operation where
  | add (node : Node Element)
  | openScope (kind : ConnectionKind)
  | close
  /-- Leaves the scope that was opened at the depth, after its body. -/
  | leave (depth : Nat) (body : Except Error Unit)

namespace Operation

def apply (b : Builder) : Operation → Builder
  | add node => b.add node
  | openScope kind => b.openScope kind
  | close => b.close.1
  | leave depth body => (b.leaveScope depth body).1

/-- The builder after operations, from the first to the last. -/
def applyAll (b : Builder) (operations : List Operation) : Builder := operations.foldl apply b

theorem applyAll_append (b : Builder) (operations operations' : List Operation) :
    applyAll b (operations ++ operations') = applyAll (applyAll b operations) operations' :=
  List.foldl_append

end Operation

namespace Step

mutual

/-- The operations that a step performs. -/
def operations : Step β → Builder → List Operation
  | add node, _ => [.add node]
  | openScope kind, _ => [.openScope kind]
  | close, _ => [.close]
  | scope kind body, b =>
    .openScope kind :: (operationsOf body (b.openScope kind) ++
      [.leave b.depth (runAll body (b.openScope kind)).outcome])
  | observe _, _ => []
  | required step, b => step.operations b

/-- The operations that a script performs, until a step ends it. -/
def operationsOf : List (Step β) → Builder → List Operation
  | [], _ => []
  | step :: steps, b =>
    step.operations b ++ if step.ends b then [] else operationsOf steps (step.run b).builder

end

open Operation

mutual

theorem builder_run (step : Step β) (b : Builder) :
    (step.run b).builder = applyAll b (step.operations b) := by
  cases step with
  | add node => rfl
  | openScope kind => rfl
  | close => rfl
  | scope kind body =>
    rw [operations, applyAll, List.foldl_cons, ← applyAll, applyAll_append]
    show (Builder.leaveScope _ _ _).1 = (Builder.leaveScope _ _ _).1
    rw [builder_runAll body]
    rfl
  | observe look => rfl
  | required step => exact builder_run step b

/-- The operations of a run make the builder after the run. -/
theorem builder_runAll (steps : List (Step β)) (b : Builder) :
    (runAll steps b).builder = applyAll b (operationsOf steps b) := by
  cases steps with
  | nil => rfl
  | cons step steps =>
    rw [runAll_cons, operationsOf, applyAll_append, ← builder_run step b]
    cases step.ends b with
    | true => rfl
    | false => exact builder_runAll steps (step.run b).builder

end

mutual

theorem exists_prefix_of_mem_events_run (step : Step β) (b : Builder) {event : Event β}
    (h : event ∈ (step.run b).events) :
    ∃ done, done <+: step.operations b ∧ applyAll b done = event.builder := by
  cases step with
  | add node =>
    obtain rfl := List.mem_singleton.mp h
    exact ⟨_, List.prefix_rfl, rfl⟩
  | openScope kind =>
    obtain rfl := List.mem_singleton.mp h
    exact ⟨_, List.prefix_rfl, rfl⟩
  | close =>
    obtain rfl := List.mem_singleton.mp h
    exact ⟨_, List.prefix_rfl, rfl⟩
  | scope kind body =>
    rcases List.mem_append.mp h with hinside | hlast
    · obtain ⟨done, hdone, hbuilder⟩ :=
        exists_prefix_of_mem_events body (b.openScope kind) hinside
      refine ⟨.openScope kind :: done, ?_, hbuilder⟩
      exact List.cons_prefix_cons.mpr ⟨rfl, hdone.trans (List.prefix_append _ _)⟩
    · obtain rfl := List.mem_singleton.mp hlast
      exact ⟨_, List.prefix_rfl, (builder_run (.scope kind body) b).symm⟩
  | observe look =>
    obtain rfl := List.mem_singleton.mp h
    exact ⟨[], List.nil_prefix, rfl⟩
  | required step => exact exists_prefix_of_mem_events_run step b h

/-- The builder of an event is the one after some of the operations. -/
theorem exists_prefix_of_mem_events (steps : List (Step β)) (b : Builder) {event : Event β}
    (h : event ∈ (runAll steps b).events) :
    ∃ done, done <+: operationsOf steps b ∧ applyAll b done = event.builder := by
  cases steps with
  | nil => cases h
  | cons step steps =>
    have hfirst (hevent : event ∈ (step.run b).events) :
        ∃ done, done <+: operationsOf (step :: steps) b ∧ applyAll b done = event.builder := by
      obtain ⟨done, hdone, hbuilder⟩ := exists_prefix_of_mem_events_run step b hevent
      exact ⟨done, hdone.trans (List.prefix_append _ _), hbuilder⟩
    rw [runAll_cons] at h
    cases hends : step.ends b with
    | true =>
      rw [if_pos hends] at h
      exact hfirst h
    | false =>
      rw [if_neg (by simp [hends])] at h
      rcases List.mem_append.mp h with hevent | hrest
      · exact hfirst hevent
      · obtain ⟨done, hdone, hbuilder⟩ :=
          exists_prefix_of_mem_events steps (step.run b).builder hrest
        refine ⟨step.operations b ++ done, ?_, ?_⟩
        · rw [operationsOf, hends]
          exact (List.prefix_append_right_inj _).mpr hdone
        · rw [applyAll_append, ← builder_run, hbuilder]

end

end Step

end CircuitCode
