import CircuitCode.Proofs.Builder.Level
import CircuitCode.Proofs.Builder.Simulation

/-!
# Scopes with bodies

A scope with a body is confined if it leaves the scopes around it as they were, up to one
connection of its kind that it adds when it succeeds (`Run.Confined`). It is not confined whatever
the body does, because a body can close the scope that it runs in and those around it.
`Step.scope_confined_iff` says when it is. For bodies that stay on their level the scope is
confined, and does what opening it, its steps and closing it do (`Step.run_scope_of_closesOwnAll`).
-/

namespace CircuitCode

variable {β : Type}

/-- The run of a scope in a builder leaves the scopes of the builder as they are, but for one more
    connection of the kind of the scope in the innermost of them if the run succeeds. -/
structure Run.Confined (run : Run β) (b : Builder) (kind : ConnectionKind) : Prop where
  depth : run.builder.depth = b.depth
  scopes :
    match run.outcome with
    | .ok () => ∃ c : Connection Element, c.kind = kind ∧ run.builder = b.add c.toNode
    | .error _ => run.builder = b

/-- A run that fails is confined if it leaves the builder as it was. -/
theorem Run.confined_of_error {run : Run β} {b : Builder} {kind : ConnectionKind} {e : Error}
    (houtcome : run.outcome = .error e) (hbuilder : run.builder = b) : run.Confined b kind := by
  constructor
  · rw [hbuilder]
  · rw [houtcome]
    exact hbuilder

theorem Connection.kind_ofChildren {kind : ConnectionKind} {nodes : List (Node Element)}
    {c : Connection Element} (h : ofChildren kind nodes = .ok c) : c.kind = kind := by
  obtain ⟨-, rfl⟩ := ofChildren_eq_ok_iff.mp h
  rfl

theorem Scope.add_inj {scope scope' : Scope} {node node' : Node Element} :
    scope.add node = scope'.add node' ↔ scope = scope' ∧ node = node' := by
  obtain ⟨kind, nodes⟩ := scope
  obtain ⟨kind', nodes'⟩ := scope'
  simp [add, and_assoc]

namespace Builder

theorem depth_add (b : Builder) (node : Node Element) : (b.add node).depth = b.depth := by
  unfold add depth
  cases b.nested <;> rfl

/-- Builders that are equal after a node has been added to each were equal before. -/
theorem add_inj {b b' : Builder} {node node' : Node Element} (h : b.add node = b'.add node') :
    b = b' ∧ node = node' := by
  obtain ⟨outermost, nested⟩ := b
  obtain ⟨outermost', nested'⟩ := b'
  cases nested with
  | nil =>
    cases nested' with
    | nil => simpa [add, Scope.add_inj] using h
    | cons inner' outer' => simp [add] at h
  | cons inner outer =>
    cases nested' with
    | nil => simp [add] at h
    | cons inner' outer' =>
      obtain ⟨houtermost, ⟨hinner, hnode⟩, houter⟩ : outermost = outermost' ∧
          (inner = inner' ∧ node = node') ∧ outer = outer' := by
        simpa [add, Scope.add_inj] using h
      exact ⟨by rw [houtermost, hinner, houter], hnode⟩

theorem takeScope_of_nested_eq_nil {b : Builder} (h : b.nested = []) (count : Nat) :
    b.takeScope count = (b, none) := by
  obtain ⟨outermost, nested⟩ := b
  obtain rfl : nested = [] := h
  simp [takeScope]

/-- Taking a scope out leaves the scopes that were open before it exactly if they still are, below
    the one that is taken out. Otherwise one of them is taken out, unless there were none. -/
theorem takeScope_fst_eq_iff {b after : Builder} :
    (after.takeScope (b.depth + 1)).1 = b ↔
      (∃ own left, after = b.within own left) ∨ b.nested = [] ∧ after = b := by
  constructor
  · intro h
    unfold takeScope at h
    split at h
    · next hnone =>
      right
      obtain rfl := h
      have hnested : after.nested = [] := by
        rw [← List.length_eq_zero_iff]
        have hlength := List.drop_eq_nil_iff.mp hnone
        omega
      refine ⟨rfl, ?_⟩
      rw [← hnested]
    · next own outer htaken =>
      left
      obtain rfl := h
      refine ⟨own, after.nested.take (after.nested.length - (outer.length + 1)), ?_⟩
      have hnested := List.take_append_drop (after.nested.length - (outer.length + 1)) after.nested
      exact congrArg (Builder.mk after.outermost) (hnested.symm.trans (congrArg _ htaken))
  · rintro (⟨own, left, rfl⟩ | ⟨hnested, rfl⟩)
    · rw [takeScope_within]
    · rw [takeScope_of_nested_eq_nil hnested]

end Builder

namespace Step

variable {kind : ConnectionKind} {body : List (Step β)} {b : Builder}

/-- Running a scope is confined if the body leaves the scopes around it open as they were, and the
    scope that is left in the end is of the kind that was asked for. -/
theorem confined_of_within {own : Scope} {left : List Scope}
    (hafter : (runAll body (b.openScope kind)).builder = b.within own left)
    (hkind : ((scope kind body).run b).outcome = .ok () → own.kind = kind) :
    ((scope kind body).run b).Confined b kind := by
  obtain ⟨hbuilder, houtcome⟩ := run_scope_eq_within hafter
  cases hbody : (runAll body (b.openScope kind)).outcome with
  | error e =>
    rw [hbody] at hbuilder houtcome
    exact Run.confined_of_error houtcome hbuilder
  | ok u =>
    rw [hbody] at hbuilder houtcome
    dsimp only at hbuilder houtcome
    rcases b.complete_cases own with ⟨c, hc, hcomplete⟩ | ⟨cause, hcomplete⟩
    · rw [hcomplete] at hbuilder houtcome
      refine ⟨?_, ?_⟩
      · rw [hbuilder, Builder.depth_add]
      · rw [houtcome]
        exact ⟨c, (Connection.kind_ofChildren hc).trans (hkind houtcome), hbuilder⟩
    · rw [hcomplete] at hbuilder houtcome
      exact Run.confined_of_error houtcome hbuilder

/-- Where the run of a scope is confined, no scope around it was taken out in its place. -/
theorem takeScope_of_confined (h : ((scope kind body).run b).Confined b kind) :
    ((runAll body (b.openScope kind)).builder.takeScope (b.depth + 1)).1 = b ∧
      ∀ own, ((runAll body (b.openScope kind)).builder.takeScope (b.depth + 1)).2 = some own →
        ((scope kind body).run b).outcome = .ok () → own.kind = kind := by
  obtain ⟨-, hscopes⟩ := h
  rw [run] at hscopes ⊢
  dsimp only at hscopes ⊢
  rw [Builder.leaveScope_eq] at hscopes ⊢
  generalize (runAll body (b.openScope kind)).builder.takeScope (b.depth + 1) = taken at hscopes ⊢
  obtain ⟨rest, taken⟩ := taken
  cases hbody : (runAll body (b.openScope kind)).outcome with
  | error e =>
    rw [hbody] at hscopes
    refine ⟨hscopes, fun own hown hok => ?_⟩
    cases hok
  | ok u =>
    rw [hbody] at hscopes
    cases taken with
    | none =>
      refine ⟨hscopes, fun own hown _ => ?_⟩
      cases hown
    | some own =>
      dsimp only at hscopes ⊢
      rcases rest.complete_cases own with ⟨c, hc, hcomplete⟩ | ⟨cause, hcomplete⟩
      · rw [hcomplete] at hscopes
        obtain ⟨d, hd, hadd⟩ := hscopes
        obtain ⟨hrest, hnode⟩ := Builder.add_inj hadd
        refine ⟨hrest, ?_⟩
        intro own hown _
        obtain rfl := Option.some.inj hown
        exact (Connection.kind_ofChildren hc).symm.trans ((Node.branch.inj hnode).1.trans hd)
      · rw [hcomplete] at hscopes ⊢
        refine ⟨hscopes, fun own hown hok => ?_⟩
        cases hok

/-- A body that stays on its level leaves the scopes around it as they were. What it leaves open
    stands inside its own scope, which has the nodes of its level. -/
theorem exists_runAll_body_eq_within (h : ClosesOwnAll body (b.depth + 1) (b.openScope kind)) :
    ∃ left, (runAll body (b.openScope kind)).builder =
      b.within ⟨kind, nodesAt body (b.depth + 1) (b.openScope kind)⟩ left :=
  exists_runAll_eq_within body (b.openScope_eq_within kind) h

/-- The run of a scope is confined if its body stays on its level. In general it is exactly if the
    body leaves the scopes of the builder open as they were around another one, which has the kind
    asked for if the run succeeds, or if there are none but the outermost and the body comes back to
    the builder as it was. -/
theorem scope_confined_iff (kind : ConnectionKind) (body : List (Step β)) (b : Builder) :
    (ClosesOwnAll body (b.depth + 1) (b.openScope kind) →
      ((scope kind body).run b).Confined b kind) ∧
    (((scope kind body).run b).Confined b kind ↔
      (∃ own left, (runAll body (b.openScope kind)).builder = b.within own left ∧
        (((scope kind body).run b).outcome = .ok () → own.kind = kind)) ∨
      b.nested = [] ∧ (runAll body (b.openScope kind)).builder = b) := by
  refine ⟨?_, ?_, ?_⟩
  · intro h
    obtain ⟨left, hafter⟩ := exists_runAll_body_eq_within h
    exact confined_of_within hafter fun _ => rfl
  · intro h
    obtain ⟨hrest, hkind⟩ := takeScope_of_confined h
    rcases Builder.takeScope_fst_eq_iff.mp hrest with ⟨own, left, hafter⟩ | hafter
    · refine .inl ⟨own, left, hafter, hkind own ?_⟩
      rw [hafter, Builder.takeScope_within]
    · exact .inr hafter
  · rintro (⟨own, left, hafter, hkind⟩ | ⟨hnested, hafter⟩)
    · exact confined_of_within hafter hkind
    · have htaken :
          (runAll body (b.openScope kind)).builder.takeScope (b.depth + 1) = (b, none) := by
        rw [hafter, Builder.takeScope_of_nested_eq_nil hnested]
      rw [run]
      dsimp only
      rw [Builder.leaveScope_eq, htaken]
      cases (runAll body (b.openScope kind)).outcome with
      | ok u => exact Run.confined_of_error rfl rfl
      | error e => exact Run.confined_of_error rfl rfl

/-- A resistor in a series that is still open. -/
def openedSeries : Builder :=
  ((Builder.start .series).openScope .series).add (.leaf (.ofKind .resistor))

/-- Adds a capacitor and closes the scope that it runs in. -/
def closingBody : List (Step Unit) := [add (.leaf (.ofKind .capacitor)), close]

/-- A scope whose body closes it goes on to take out the scope around it. -/
theorem not_confined_closingBody :
    ¬ ClosesOwnAll closingBody (openedSeries.depth + 1) (openedSeries.openScope .series) ∧
      ((scope .series closingBody).run openedSeries).builder.depth = 0 ∧ openedSeries.depth = 1 ∧
      ¬ ((scope .series closingBody).run openedSeries).Confined openedSeries .series := by
  have hdepth : ((scope .series closingBody).run openedSeries).builder.depth = 0 := by rfl
  have hconfined :
      ¬ ((scope .series closingBody).run openedSeries).Confined openedSeries .series := by
    intro h
    have := h.depth
    rw [hdepth] at this
    cases this
  refine ⟨?_, hdepth, rfl, hconfined⟩
  intro h
  exact hconfined ((scope_confined_iff .series closingBody openedSeries).1 h)

theorem runAll_required_close (b : Builder) :
    (runAll [required (close : Step β)] b).builder = b.close.1 ∧
      (runAll [required (close : Step β)] b).outcome = b.close.2.mapError .builder := by
  rcases hclose : b.close with ⟨after, outcome⟩
  cases outcome <;>
    simp [runAll, isRequired, run, single, hclose, Except.mapError, Except.map]

/-- Opening a scope, running steps that leave no other scope open inside it, and closing it. -/
theorem runAll_openScope_close {own : Scope}
    (houtcome : (runAll body (b.openScope kind)).outcome = .ok ())
    (hafter : (runAll body (b.openScope kind)).builder = b.within own []) :
    (runAll (openScope kind :: (body ++ [required close])) b).builder = (b.complete own).1 ∧
      (runAll (openScope kind :: (body ++ [required close])) b).outcome =
        (b.complete own).2.mapError .builder := by
  obtain ⟨hbuilder, hclosed⟩ := runAll_append_of_ok houtcome [required close]
  obtain ⟨hbuilder', hclosed'⟩ := runAll_required_close (β := β) (b.within own [])
  rw [hafter] at hbuilder hclosed
  exact ⟨hbuilder.trans hbuilder', hclosed.trans hclosed'⟩

/-- What a scope does whose body stays on its level. If the body leaves no scope of its own open,
    opening the scope, the steps of the body and closing the scope have the same outcome and leave
    the same builder. Scopes that the body leaves open are dropped, and the connection is made of
    the nodes of the body's own level. A scope that fails leaves the builder as it was. -/
theorem run_scope_of_closesOwnAll {kind : ConnectionKind} {body : List (Step β)} {b : Builder}
    (h : ClosesOwnAll body (b.depth + 1) (b.openScope kind)) :
    let inside := runAll body (b.openScope kind)
    let whole := (scope kind body).run b
    let parts := runAll (openScope kind :: (body ++ [required close])) b
    let own : Scope := ⟨kind, nodesAt body (b.depth + 1) (b.openScope kind)⟩
    (inside.outcome = .ok () → inside.builder.depth = b.depth + 1 →
      whole.outcome = parts.outcome ∧ whole.builder = parts.builder) ∧
    (∃ left, inside.builder = b.within own left ∧
      (inside.outcome = .ok () →
        whole.outcome = (b.complete own).2.mapError .builder ∧
          whole.builder = (b.complete own).1)) ∧
    ∀ e, whole.outcome = .error e → whole.builder = b := by
  intro inside whole parts own
  obtain ⟨left, hafter⟩ := exists_runAll_body_eq_within h
  obtain ⟨hbuilder, houtcome⟩ := run_scope_eq_within hafter
  have hcommit : inside.outcome = .ok () → whole.outcome = (b.complete own).2.mapError .builder ∧
      whole.builder = (b.complete own).1 := by
    intro hok
    rw [hok] at hbuilder houtcome
    exact ⟨houtcome, hbuilder⟩
  refine ⟨?_, ⟨left, hafter, hcommit⟩, ?_⟩
  · intro hok hdepth
    obtain rfl : left = [] := by
      rw [← Builder.depth_within_eq_iff b own, ← hafter]
      exact hdepth
    obtain ⟨hbuilder', houtcome'⟩ := runAll_openScope_close hok hafter
    obtain ⟨houtcome, hbuilder⟩ := hcommit hok
    exact ⟨houtcome.trans houtcome'.symm, hbuilder.trans hbuilder'.symm⟩
  · intro e he
    have hscopes := (confined_of_within hafter fun _ => rfl).scopes
    rw [he] at hscopes
    exact hscopes

/-- A resistor and a parallel connection, after which a series is opened and left open. -/
def leftoverBody : List (Step Unit) :=
  [add (.leaf (.ofKind .resistor)), openScope .parallel, add (.leaf (.ofKind .capacitor)),
    add (.leaf (.ofKind .inductor)), close, openScope .series, add (.leaf (.ofKind .warburg))]

/-- The series that is left open is lost with the element in it. -/
theorem run_scope_leftoverBody :
    ClosesOwnAll leftoverBody 1 ((Builder.start .series).openScope .series) ∧
      ((scope .series leftoverBody).run (.start .series)).outcome = .ok () ∧
      ((scope .series leftoverBody).run (.start .series)).builder =
        (Builder.start .series).add (.branch .series [.leaf (.ofKind .resistor),
          .branch .parallel [.leaf (.ofKind .capacitor), .leaf (.ofKind .inductor)]]) := by
  have hcloses : ClosesOwnAll leftoverBody 1 ((Builder.start .series).openScope .series) :=
    ⟨trivial, fun _ => ⟨trivial, fun _ => ⟨trivial, fun _ => ⟨trivial, fun _ =>
      ⟨Nat.lt_add_one 1, fun _ => ⟨trivial, fun _ => ⟨trivial, fun _ => trivial⟩⟩⟩⟩⟩⟩⟩
  obtain ⟨-, ⟨left, -, hcommit⟩, -⟩ :=
    @run_scope_of_closesOwnAll Unit .series leftoverBody (.start .series) hcloses
  exact ⟨hcloses, hcommit rfl⟩

end Step

end CircuitCode
