import CircuitCode.Builder.Script
import CircuitCode.Proofs.Parsing.Marks

/-!
# A builder that follows the parser

The marks of a tree are the steps of a script as well as a text: an element is added, and an
opening and a closing bracket open and close a scope (`Mark.step`). The nodes that the parser has
joined so far and the scopes of the builder correspond at every mark (`Passes`). So the marks of a
tree add it to both (`passes_node`), unless a connection in it has too few nodes: then there is one
at which neither goes on (`stops_node`, `join_eq_error`, `outcome_eq_error`).
-/

namespace CircuitCode

open Grammar Mark

variable {β : Type}

namespace Step

/-- What a script does is what its first part does and then, unless that ended the script, the
    rest. -/
theorem runAll_append (steps steps' : List (Step β)) (b : Builder) :
    runAll (steps ++ steps') b =
      match (runAll steps b).outcome with
      | .ok () =>
        let rest := runAll steps' (runAll steps b).builder
        ⟨rest.builder, (runAll steps b).events ++ rest.events, rest.outcome⟩
      | .error e => ⟨(runAll steps b).builder, (runAll steps b).events, .error e⟩ := by
  induction steps generalizing b with
  | nil => rfl
  | cons step steps ih =>
    rw [List.cons_append, runAll, runAll]
    dsimp only
    split
    · rfl
    · rw [ih]
      dsimp only
      split <;> simp [List.append_assoc]

theorem runAll_append_of_ok {steps : List (Step β)} {b : Builder}
    (h : (runAll steps b).outcome = .ok ()) (steps' : List (Step β)) :
    (runAll (steps ++ steps') b).builder = (runAll steps' (runAll steps b).builder).builder ∧
      (runAll (steps ++ steps') b).outcome =
        (runAll steps' (runAll steps b).builder).outcome := by
  rw [runAll_append, h]
  exact ⟨rfl, rfl⟩

/-- A required step that fails ends the script. -/
theorem runAll_required_of_error {step : Step β} {b : Builder} {e : Error}
    (h : (step.run b).outcome = .error e) (steps : List (Step β)) :
    (runAll (.required step :: steps) b).outcome = .error e := by
  rw [runAll]
  simp [isRequired, run, h]

theorem outcome_run_close_of_error {b : Builder} {cause : BuilderError}
    (h : b.close.2 = .error cause) :
    ((close : Step β).run b).outcome = .error (.builder cause) := by
  simp [run, single, h, Except.mapError, Except.map]

theorem runAll_close_of_ok {b b' : Builder} (h : b.close = (b', .ok ())) :
    (runAll [required (close : Step β)] b).outcome = .ok () ∧
      (runAll [required (close : Step β)] b).builder = b' := by
  simp [runAll, run, single, h, Except.mapError, Except.map]

end Step

/-- The step of a mark. A scope that cannot be closed ends the script. -/
def Mark.step : Mark → Step β
  | element kind => .add (.leaf (.ofKind kind))
  | opening kind => .openScope kind
  | closing _ => .required .close

/-- The steps of marks, from left to right. -/
def Mark.script (marks : List Mark) : List (Step β) := marks.map Mark.step

theorem script_append (marks marks' : List Mark) :
    (script (marks ++ marks') : List (Step β)) = script marks ++ script marks' :=
  List.map_append

/-- How far nodes have been joined: the open connections, the innermost first, and the nodes in the
    innermost one. -/
structure Joining where
  outer : List OpenConnection
  nodes : List (Node Element)

namespace Joining

/-- Adds a node to the innermost connection. -/
def add (s : Joining) (node : Node Element) : Joining := ⟨s.outer, s.nodes ++ [node]⟩

/-- Opens a connection whose bracket has the given position. -/
def opened (s : Joining) (kind : ConnectionKind) (position : Nat) : Joining :=
  ⟨⟨kind, position, s.nodes⟩ :: s.outer, []⟩

/-- The builder whose scopes are the open connections, inside a series. -/
def builder : Joining → Builder
  | ⟨outer, nodes⟩ => go outer nodes
where
  go : List OpenConnection → List (Node Element) → Builder
    | [], nodes => ⟨⟨.series, nodes⟩, []⟩
    | inner :: outer, nodes =>
      let b := go outer inner.before
      ⟨b.outermost, ⟨inner.kind, nodes⟩ :: b.nested⟩

theorem builder_add (s : Joining) (node : Node Element) :
    s.builder.add node = (s.add node).builder := by
  obtain ⟨outer, nodes⟩ := s
  cases outer <;> rfl

/-- Closing the scope of a connection completes the connection. -/
theorem close_builder_opened (s : Joining) (kind : ConnectionKind) (position : Nat)
    (nodes : List (Node Element)) :
    (Joining.builder ⟨(s.opened kind position).outer, nodes⟩).close =
      s.builder.complete ⟨kind, nodes⟩ := rfl

/-- Without open connections the builder finishes the circuit around its nodes. -/
theorem finish_builder {nodes : List (Node Element)} {root : Connection Element}
    (h : Connection.ofChildren .series nodes = .ok root) :
    (Joining.builder ⟨[], nodes⟩).finish = .ok (.ofConnection root) := by
  simp [builder, builder.go, Builder.finish, h]

end Joining

/-- Marks at a position take the parser and the builder from one state to another. -/
structure Passes (β : Type) (position : Nat) (marks : List Mark) (s s' : Joining) : Prop where
  join : ∀ (stop : Nat) (rest : List Item),
    Items.join stop none s.outer s.nodes (items position marks ++ rest) =
      Items.join stop none s'.outer s'.nodes rest
  outcome : (Step.runAll (script marks : List (Step β)) s.builder).outcome = .ok ()
  builder : (Step.runAll (script marks : List (Step β)) s.builder).builder = s'.builder

namespace Passes

variable {position : Nat} {marks marks' : List Mark} {s s' s'' : Joining}

theorem nil : Passes β position [] s s := by
  constructor
  · intro stop rest
    rfl
  · rfl
  · rfl

theorem append (h : Passes β position marks s s')
    (h' : Passes β (position + byteLength (chars marks)) marks' s' s'') :
    Passes β position (marks ++ marks') s s'' := by
  obtain ⟨hbuilder, houtcome⟩ :=
    Step.runAll_append_of_ok h.outcome (script marks' : List (Step β))
  rw [h.builder] at hbuilder houtcome
  constructor
  · intro stop rest
    rw [items_append, List.append_assoc, h.join, h'.join]
  · rw [script_append, houtcome, h'.outcome]
  · rw [script_append, hbuilder, h'.builder]

theorem element (kind : ElementKind) :
    Passes β position [.element kind] s (s.add (.leaf (.ofKind kind))) := by
  constructor
  · intro stop rest
    rfl
  · rfl
  · exact s.builder_add _

theorem opening (kind : ConnectionKind) :
    Passes β position [.opening kind] s (s.opened kind position) := by
  constructor
  · intro stop rest
    rfl
  · rfl
  · rfl

/-- Closing a connection that has enough nodes adds it. -/
theorem closing {kind : ConnectionKind} {place : Nat} {nodes : List (Node Element)}
    {c : Connection Element} (hc : Connection.ofChildren kind nodes = .ok c) :
    Passes β position [.closing kind] ⟨(s.opened kind place).outer, nodes⟩ (s.add c.toNode) := by
  have hclose : (Joining.builder ⟨(s.opened kind place).outer, nodes⟩).close =
      ((s.add c.toNode).builder, .ok ()) := by
    rw [Joining.close_builder_opened, Builder.complete]
    simp only [hc]
    rw [Joining.builder_add]
  obtain ⟨houtcome, hbuilder⟩ := Step.runAll_close_of_ok (β := β) hclose
  refine ⟨?_, houtcome, hbuilder⟩
  intro stop rest
  show Items.join stop none _ _ (.closing kind position :: rest) = _
  simp [Items.join, Joining.opened, hc, Joining.add]

end Passes

namespace Node

/-- The tree of new elements in which connections are spliced. -/
def assembled (node : Node ElementKind) : Node Element := (node.map Element.ofKind).spliced

theorem assembled_branch (kind : ConnectionKind) (children : List (Node ElementKind)) :
    (branch kind children).assembled =
      .branch kind ((children.map assembled).flatMap (Connection.splice kind)) := by
  rw [assembled, map_branch, spliced_branch, List.map_map]
  rfl

end Node

theorem passes_nodes {children : List (Node ElementKind)}
    (hchild : ∀ child ∈ children, ∀ (position : Nat) (s : Joining),
      Passes β position child.marks s (s.add child.assembled))
    (position : Nat) (s : Joining) :
    Passes β position (children.flatMap Node.marks) s
      ⟨s.outer, s.nodes ++ children.map Node.assembled⟩ := by
  induction children generalizing position s with
  | nil => simpa using Passes.nil
  | cons child children ih =>
    obtain ⟨hfirst, hothers⟩ := List.forall_mem_cons.mp hchild
    have hrest := ih hothers (position + byteLength (chars child.marks)) (s.add child.assembled)
    have hnodes := (hfirst position s).append hrest
    simpa [Joining.add] using hnodes

/-- The marks of a tree in which every connection has the nodes it needs add the tree. -/
theorem passes_node {node : Node ElementKind} (h : node.Filled) (position : Nat) (s : Joining) :
    Passes β position node.marks s (s.add node.assembled) := by
  induction node using Node.induction generalizing position s with
  | leaf kind => exact Passes.element kind
  | branch kind children ih =>
    obtain ⟨hcount, hchildren⟩ := Node.filled_branch.mp h
    have hc : Connection.ofChildren kind (children.map Node.assembled) =
        .ok ⟨kind, (children.map Node.assembled).flatMap (Connection.splice kind)⟩ := by
      rw [Connection.ofChildren_eq_ok_iff, List.length_map]
      exact ⟨hcount, rfl⟩
    have hinside := passes_nodes (β := β) (fun child hmem => ih child hmem (hchildren child hmem))
      (position + byteLength (chars [.opening kind])) (s.opened kind position)
    rw [Node.marks_branch, Node.assembled_branch]
    exact (Passes.opening kind).append (hinside.append (Passes.closing hc))

/-- Marks pass up to a connection that has too few nodes, although these have all they need. -/
def Stops (β : Type) (position : Nat) (marks : List Mark) (s : Joining) : Prop :=
  ∃ (before : List Mark) (kind : ConnectionKind) (children : List (Node ElementKind))
    (after : List Mark) (s' : Joining),
    marks = before ++ (Node.branch kind children).marks ++ after ∧
      Passes β position before s s' ∧ (∀ child ∈ children, child.Filled) ∧
      children.length < leastNodes kind

namespace Stops

variable {position : Nat} {marks marks' : List Mark} {s s' : Joining}

theorem append_right (h : Stops β position marks s) (rest : List Mark) :
    Stops β position (marks ++ rest) s := by
  obtain ⟨before, kind, children, after, s', rfl, hbefore, hchildren, hcount⟩ := h
  refine ⟨before, kind, children, after ++ rest, s', ?_, hbefore, hchildren, hcount⟩
  rw [List.append_assoc]

theorem append_left (h : Passes β position marks s s')
    (h' : Stops β (position + byteLength (chars marks)) marks' s') :
    Stops β position (marks ++ marks') s := by
  obtain ⟨before, kind, children, after, s'', rfl, hbefore, hchildren, hcount⟩ := h'
  refine ⟨marks ++ before, kind, children, after, s'', ?_, h.append hbefore, hchildren, hcount⟩
  simp only [List.append_assoc]

end Stops

theorem stops_nodes {children : List (Node ElementKind)}
    (hchild : ∀ child ∈ children, ¬ child.Filled → ∀ (position : Nat) (s : Joining),
      Stops β position child.marks s)
    (h : ¬ ∀ child ∈ children, child.Filled) (position : Nat) (s : Joining) :
    Stops β position (children.flatMap Node.marks) s := by
  induction children generalizing position s with
  | nil => exact absurd nofun h
  | cons child children ih =>
    obtain ⟨hfirst, hothers⟩ := List.forall_mem_cons.mp hchild
    rw [List.flatMap_cons]
    by_cases hfilled : child.Filled
    · have hrest : ¬ ∀ child ∈ children, child.Filled := by
        intro hrest
        exact h (List.forall_mem_cons.mpr ⟨hfilled, hrest⟩)
      exact .append_left (passes_node hfilled position s) (ih hothers hrest _ _)
    · exact (hfirst hfilled position s).append_right _

/-- The marks of a tree stop if a connection in it has too few nodes. -/
theorem stops_node {node : Node ElementKind} (h : ¬ node.Filled) (position : Nat) (s : Joining) :
    Stops β position node.marks s := by
  induction node using Node.induction generalizing position s with
  | leaf kind => exact absurd (Node.filled_leaf kind) h
  | branch kind children ih =>
    -- The connection is closed after those inside it, so a fault in one of these comes first.
    by_cases hchildren : ∀ child ∈ children, child.Filled
    · have hcount : children.length < leastNodes kind := by
        apply Nat.lt_of_not_le
        intro hcount
        exact h (Node.filled_branch.mpr ⟨hcount, hchildren⟩)
      refine ⟨[], kind, children, [], s, ?_, Passes.nil, hchildren, hcount⟩
      simp
    · have hinside := stops_nodes (β := β) ih hchildren
        (position + byteLength (chars [.opening kind])) (s.opened kind position)
      rw [Node.marks_branch]
      exact .append_left (Passes.opening kind) (hinside.append_right _)

section Failure

variable {position : Nat} {before : List Mark} {kind : ConnectionKind}
  {children : List (Node ElementKind)} {cause : ConnectionError} {s s' : Joining}

/-- The marks of a connection among others, parted before its closing bracket. -/
theorem append_marks_branch_append (before : List Mark) (kind : ConnectionKind)
    (children : List (Node ElementKind)) (after : List Mark) :
    before ++ (Node.branch kind children).marks ++ after =
      (before ++ .opening kind :: children.flatMap Node.marks) ++ .closing kind :: after := by
  simp [Node.marks_branch]

/-- The state in which the bracket of a connection is to be closed. -/
theorem passes_opened (kind : ConnectionKind) (hbefore : Passes β position before s s')
    (hchildren : ∀ child ∈ children, child.Filled) :
    Passes β position (before ++ .opening kind :: children.flatMap Node.marks) s
      ⟨(s'.opened kind (position + byteLength (chars before))).outer,
        children.map Node.assembled⟩ := by
  have hinside := passes_nodes (β := β)
    (fun child hmem => passes_node (hchildren child hmem))
    (position + byteLength (chars before) + byteLength (chars [.opening kind]))
    (s'.opened kind (position + byteLength (chars before)))
  exact hbefore.append ((Passes.opening kind).append hinside)

theorem close_eq_error (hbefore : Passes β position before s s')
    (hchildren : ∀ child ∈ children, child.Filled)
    (hcause : Connection.validate kind children.length = .error cause) :
    (Step.runAll (script (before ++ .opening kind :: children.flatMap Node.marks) :
      List (Step β)) s.builder).builder.close.2 = .error (.connection cause) := by
  rw [(passes_opened kind hbefore hchildren).builder, Joining.close_builder_opened,
    Builder.complete, Connection.ofChildren_eq_error (by rwa [List.length_map])]

/-- The parser stops at the closing bracket, with the place of the opening one. -/
theorem join_eq_error (hbefore : Passes β position before s s')
    (hchildren : ∀ child ∈ children, child.Filled)
    (hcause : Connection.validate kind children.length = .error cause) (stop : Nat)
    (after : List Mark) :
    Items.join stop none s.outer s.nodes
        (items position (before ++ (Node.branch kind children).marks ++ after)) =
      .error (.ofConnectionError (position + byteLength (chars before)) cause) := by
  rw [append_marks_branch_append, items_append, (passes_opened kind hbefore hchildren).join]
  show Items.join stop none (⟨kind, _, s'.nodes⟩ :: s'.outer) _ (.closing kind _ :: _) = _
  rw [Items.join, if_pos rfl, Connection.ofChildren_eq_error (by rwa [List.length_map])]

/-- The builder stops there too. -/
theorem outcome_eq_error (hbefore : Passes β position before s s')
    (hchildren : ∀ child ∈ children, child.Filled)
    (hcause : Connection.validate kind children.length = .error cause) (after : List Mark) :
    (Step.runAll (script (before ++ (Node.branch kind children).marks ++ after) :
      List (Step β)) s.builder).outcome = .error (.builder (.connection cause)) := by
  have hclose := close_eq_error hbefore hchildren hcause
  have hopened := (passes_opened kind hbefore hchildren).outcome
  rw [append_marks_branch_append, script_append, (Step.runAll_append_of_ok hopened _).2]
  exact Step.runAll_required_of_error (Step.outcome_run_close_of_error hclose) _

end Failure

end CircuitCode
