import CircuitCode.Proofs.Builder.Operation
import CircuitCode.Proofs.Circuit.Identifiers

/-!
# What becomes of added elements

A ledger keeps, beside a builder, the elements that were added to it and the scopes that were
discarded. No operation repeats or reorders elements: those in the scopes, from the outermost one
in, with those that the operation adds are those in the scopes afterwards with those of the scopes
that it discards, in this order (`Operation.leaves_apply`). So at every moment of every run the
elements in the builder are those that were added, in order, less those of the discarded scopes
(`Ledger.balanced_of_run`).
-/

namespace CircuitCode

variable {β : Type}

/-- The elements in a scope, from left to right. -/
def Scope.leaves (scope : Scope) : List Element := scope.nodes.flatMap Node.leaves

/-- The elements in the scopes, from the outermost scope in. -/
def Builder.leaves (b : Builder) : List Element :=
  b.outermost.leaves ++ b.nested.reverse.flatMap Scope.leaves

namespace Builder

variable (b : Builder) (scope : Scope)

theorem leaves_of_nested_eq {inner : Scope} {outer : List Scope} (h : b.nested = inner :: outer) :
    b.leaves = ({ b with nested := outer } : Builder).leaves ++ inner.leaves := by
  unfold leaves
  rw [h, List.reverse_cons, List.flatMap_append, List.flatMap_singleton, List.append_assoc]

theorem leaves_add (node : Node Element) : (b.add node).leaves = b.leaves ++ node.leaves := by
  obtain ⟨outermost, nested⟩ := b
  cases nested with
  | nil => simp [leaves, add, Scope.add, Scope.leaves]
  | cons inner outer => simp [leaves, add, Scope.add, Scope.leaves]

theorem leaves_openScope (kind : ConnectionKind) : (b.openScope kind).leaves = b.leaves := by
  rw [(b.openScope kind).leaves_of_nested_eq rfl]
  exact List.append_nil _

/-- A scope is completed with its elements, or none of them. -/
theorem leaves_complete :
    b.leaves ++ scope.leaves =
      (b.complete scope).1.leaves ++
        match (b.complete scope).2 with
        | .ok () => []
        | .error _ => scope.leaves := by
  rcases b.complete_cases scope with ⟨c, hc, hcomplete⟩ | ⟨cause, hcomplete⟩
  · rw [hcomplete, leaves_add, show c.toNode.leaves = _ from Connection.leaves_ofChildren hc]
    exact (List.append_nil _).symm
  · rw [hcomplete]

/-- The scopes that are left out when all but the outermost `count` of them are dropped. -/
def dropped (count : Nat) : List Scope := (b.nested.take (b.nested.length - count)).reverse

theorem leaves_takeScope (count : Nat) :
    b.leaves = (b.takeScope count).1.leaves ++
      ((b.takeScope count).2.toList ++ b.dropped count).flatMap Scope.leaves := by
  have hnested := List.take_append_drop (b.nested.length - count) b.nested
  unfold takeScope dropped
  split
  · next hnone =>
    rw [hnone, List.append_nil] at hnested
    rw [hnested]
    simp [leaves]
  · next own outer htaken =>
    rw [htaken] at hnested
    unfold leaves
    conv => lhs; rw [← hnested]
    simp

end Builder

/-- The elements that an operation adds. -/
def Operation.leaves : Operation → List Element
  | add node => node.leaves
  | openScope _ => []
  | close => []
  | leave _ _ => []

/-- The scopes that an operation discards, from the outermost one in: the innermost scope if it
    cannot be closed, and of a scope with a body what the body left open, and the scope itself if
    it fails. -/
def Operation.discarded (b : Builder) : Operation → List Scope
  | add _ => []
  | openScope _ => []
  | close =>
    match b.close.2 with
    | .ok () => []
    | .error _ => b.nested.take 1
  | leave depth body =>
    match (b.leaveScope depth body).2 with
    | .ok () => b.dropped (depth + 1)
    | .error _ => (b.takeScope (depth + 1)).2.toList ++ b.dropped (depth + 1)

/-- An operation moves no element and makes none but those that it adds: what it discards comes
    last. -/
theorem Operation.leaves_apply (b : Builder) (operation : Operation) :
    b.leaves ++ operation.leaves =
      (operation.apply b).leaves ++ (operation.discarded b).flatMap Scope.leaves := by
  cases operation with
  | add node =>
    rw [apply, Builder.leaves_add]
    exact (List.append_nil _).symm
  | openScope kind =>
    rw [apply, Builder.leaves_openScope]
    rfl
  | close =>
    rw [apply, discarded, leaves, List.append_nil]
    unfold Builder.close
    cases hscopes : b.nested with
    | nil => exact (List.append_nil _).symm
    | cons inner outer =>
      dsimp only
      rw [b.leaves_of_nested_eq hscopes, Builder.leaves_complete]
      cases (Builder.complete { b with nested := outer } inner).2 with
      | ok u => rfl
      | error e => exact congrArg _ (List.flatMap_singleton _ _).symm
  | leave depth body =>
    rw [apply, discarded, leaves, List.append_nil, b.leaves_takeScope (depth + 1),
      Builder.leaveScope_eq]
    rcases b.takeScope (depth + 1) with ⟨rest, taken⟩
    cases body with
    | error e => rfl
    | ok u =>
      cases taken with
      | none => rfl
      | some own =>
        dsimp only
        rw [Option.toList_some, List.flatMap_append, List.flatMap_singleton, ← List.append_assoc,
          Builder.leaves_complete]
        cases (rest.complete own).2 with
        | ok u => simp [Except.mapError]
        | error e => simp [Except.mapError]

/-- A builder, the elements that have been added to it so far, and the scopes that it has
    discarded. -/
structure Ledger where
  builder : Builder
  added : List Element
  discarded : List Scope

namespace Ledger

/-- A new builder. -/
def start (kind : ConnectionKind) : Ledger := ⟨.start kind, [], []⟩

/-- Performs an operation. -/
def record (l : Ledger) (operation : Operation) : Ledger :=
  ⟨operation.apply l.builder, l.added ++ operation.leaves,
    l.discarded ++ operation.discarded l.builder⟩

/-- The ledger of a new builder after operations. -/
def after (kind : ConnectionKind) (operations : List Operation) : Ledger :=
  operations.foldl record (start kind)

theorem builder_after (kind : ConnectionKind) (operations : List Operation) :
    (after kind operations).builder = Operation.applyAll (.start kind) operations :=
  (@List.foldl_hom Ledger Builder Operation builder record Operation.apply operations
    (start kind) fun _ _ => rfl).symm

/-- Nothing that was added is repeated or reordered, and what is missing is in discarded scopes. -/
structure Balanced (l : Ledger) : Prop where
  ordered : l.builder.leaves.Sublist l.added
  accounted : l.added.Perm (l.builder.leaves ++ l.discarded.flatMap Scope.leaves)

theorem balanced_start (kind : ConnectionKind) : (start kind).Balanced :=
  ⟨List.Sublist.refl [], List.Perm.refl []⟩

theorem Balanced.record {l : Ledger} (h : l.Balanced) (operation : Operation) :
    (l.record operation).Balanced := by
  have happly := operation.leaves_apply l.builder
  constructor
  · show (operation.apply l.builder).leaves.Sublist (l.added ++ operation.leaves)
    have hkept : (operation.apply l.builder).leaves.Sublist
        (l.builder.leaves ++ operation.leaves) := by
      rw [happly]
      exact List.sublist_append_left _ _
    exact hkept.trans (h.ordered.append_right _)
  · show (l.added ++ operation.leaves).Perm ((operation.apply l.builder).leaves ++
      (l.discarded ++ operation.discarded l.builder).flatMap Scope.leaves)
    rw [List.flatMap_append]
    have hadded : (l.added ++ operation.leaves).Perm
        (l.builder.leaves ++ operation.leaves ++ l.discarded.flatMap Scope.leaves) := by
      refine (h.accounted.append_right _).trans ?_
      rw [List.append_assoc, List.append_assoc]
      exact List.perm_append_comm.append_left _
    refine hadded.trans ?_
    rw [happly, List.append_assoc]
    exact List.perm_append_comm.append_left _

theorem balanced_after (kind : ConnectionKind) (operations : List Operation) :
    (after kind operations).Balanced := by
  have hstart := balanced_start kind
  unfold after
  generalize start kind = l at hstart ⊢
  induction operations generalizing l with
  | nil => exact hstart
  | cons operation operations ih => exact ih _ (hstart.record operation)

end Ledger

/-- An element, which may have got an identifier that it lacked. -/
def Element.NumberedAs (e e' : Element) : Prop :=
  e' = e ∨ e.identifier = none ∧ ∃ number, e' = { e with identifier := some number }

theorem Element.numberedAs_number (last : ElementKind → Nat) (e : Element) :
    e.NumberedAs (e.number last).1 := by
  unfold number
  dsimp only
  split
  · exact .inl rfl
  · next h =>
    simp only [Bool.or_eq_true, not_or, Bool.not_eq_true, Option.isSome_eq_false_iff,
      Option.isNone_iff_eq_none] at h
    exact .inr ⟨h.1, _, rfl⟩

theorem forall₂_traverseList {α σ : Type} {f : σ → α → α × σ} {R : α → α → Prop}
    (h : ∀ s a, R a (f s a).1) (as : List α) (s : σ) :
    List.Forall₂ R as (traverseList f as s).1 := by
  induction as generalizing s with
  | nil => exact .nil
  | cons a as ih => exact .cons (h s a) (ih _)

theorem Circuit.forall₂_numberedAs_ofConnection (c : Connection Element) :
    List.Forall₂ Element.NumberedAs c.leaves (ofConnection c).elements := by
  have hpass : (traverseList Element.number c.leaves _).1 = (ofConnection c).elements :=
    congrArg Prod.fst (traverseList_leaves c)
  rw [← hpass]
  exact forall₂_traverseList Element.numberedAs_number _ _

namespace Builder

/-- A finished circuit has the elements of the builder. -/
theorem forall₂_numberedAs_finish {b : Builder} {c : Circuit} (h : b.finish = .ok c) :
    List.Forall₂ Element.NumberedAs b.leaves c.elements := by
  unfold finish at h
  by_cases hopen : b.nested.isEmpty
  · rw [if_pos hopen] at h
    cases hroot : Connection.ofChildren b.outermost.kind b.outermost.nodes with
    | ok root =>
      rw [hroot] at h
      obtain rfl := Except.ok.inj h
      have hleaves : b.leaves = root.leaves := by
        rw [Connection.leaves_ofChildren hroot, leaves, List.isEmpty_iff.mp hopen]
        exact List.append_nil _
      rw [hleaves]
      exact Circuit.forall₂_numberedAs_ofConnection root
    | error cause =>
      rw [hroot] at h
      cases h
  · rw [if_neg hopen] at h
    cases h

end Builder

/-- At every moment of a run the elements in the scopes of the builder, from the outermost one in,
    are elements that have been added so far, in the same order, and those that are missing are the
    elements of discarded scopes. If the builder can be finished then, the circuit has just these
    elements, in this order, where only new identifiers are assigned. The moments are those after
    each operation of the run; they come to the builder after the run and meet every event. -/
theorem Ledger.balanced_of_run (kind : ConnectionKind) (steps : List (Step β)) :
    (∀ done, done <+: Step.operationsOf steps (.start kind) →
      (after kind done).Balanced ∧
        ∀ c, (after kind done).builder.finish = .ok c →
          List.Forall₂ Element.NumberedAs (after kind done).builder.leaves c.elements) ∧
    (after kind (Step.operationsOf steps (.start kind))).builder =
      (Step.runAll steps (.start kind)).builder ∧
    ∀ event ∈ (Step.runAll steps (.start kind)).events,
      ∃ done, done <+: Step.operationsOf steps (.start kind) ∧
        (after kind done).builder = event.builder := by
  refine ⟨?_, ?_, ?_⟩
  · intro done _
    exact ⟨balanced_after kind done, fun c hc => Builder.forall₂_numberedAs_finish hc⟩
  · rw [builder_after, Step.builder_runAll]
  · intro event hevent
    obtain ⟨done, hdone, hbuilder⟩ := Step.exists_prefix_of_mem_events steps _ hevent
    exact ⟨done, hdone, (builder_after kind done).trans hbuilder⟩

/-- A resistor, and a parallel connection of a single capacitor in which a series is left open. -/
def failingParallel : List (Step Unit) :=
  [.add (.leaf (.ofKind .resistor)),
    .scope .parallel [.add (.leaf (.ofKind .capacitor)), .openScope .series,
      .add (.leaf (.ofKind .inductor))]]

/-- The parallel connection is discarded with what was left open in it. -/
theorem Ledger.balanced_of_run_failingParallel :
    let l := after .series (Step.operationsOf failingParallel (.start .series))
    l.added = [.ofKind .resistor, .ofKind .capacitor, .ofKind .inductor] ∧
      l.builder.leaves = [.ofKind .resistor] ∧
      l.discarded.flatMap Scope.leaves = [.ofKind .capacitor, .ofKind .inductor] ∧
      l.Balanced ∧
      ∃ c, l.builder.finish = .ok c ∧
        List.Forall₂ Element.NumberedAs l.builder.leaves c.elements := by
  obtain ⟨hbalanced, hfinish⟩ := (balanced_of_run .series failingParallel).1 _ List.prefix_rfl
  exact ⟨rfl, rfl, rfl, hbalanced, _, rfl, hfinish _ rfl⟩

end CircuitCode
