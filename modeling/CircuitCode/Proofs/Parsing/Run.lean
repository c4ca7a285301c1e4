import CircuitCode.Proofs.Circuit.Parsed
import CircuitCode.Proofs.Parsing.Closed

/-!
# Runs of nodes

Some nodes that stand one after the other in a connection, anywhere in a list of tokens
(`RunAt`). Other nodes may take their place: if they contribute the same to their connection, the
tokens with the other nodes stand for the same circuit (`RunAt.exists_replace`).
-/

namespace CircuitCode

namespace Grammar

theorem DerivesNodes.singleton {tokens : List Token} {node : Node Leaf}
    (h : DerivesNode tokens node) : DerivesNodes tokens [node] := by
  simpa using DerivesNodes.cons h .nil

theorem DerivesNodes.append {tokens tokens' : List Token} {nodes nodes' : List (Node Leaf)}
    (h : DerivesNodes tokens nodes) (h' : DerivesNodes tokens' nodes') :
    DerivesNodes (tokens ++ tokens') (nodes ++ nodes') := by
  induction nodes generalizing tokens with
  | nil =>
    cases h with
    | nil => exact h'
  | cons node nodes ih =>
    cases h with
    | cons hnode hnodes =>
      rw [List.append_assoc]
      exact .cons hnode (ih hnodes)

/-- Among all the tokens of a text, those of `run` derive the nodes `middle`, and these stand in a
    connection of the given kind between the nodes `left` and `right`. The connection is the text as
    a whole, which is a series, or it is a node of another connection. -/
inductive RunAt : ConnectionKind → List Token → List Token → List Token → List (Node Leaf) →
    List (Node Leaf) → List (Node Leaf) → Prop where
  | root {before run after : List Token} {left middle right : List (Node Leaf)}
      (hbefore : DerivesNodes before left) (hrun : DerivesNodes run middle)
      (hafter : DerivesNodes after right) : RunAt .series before run after left middle right
  | inside {outer kind : ConnectionKind} {before after lefts run rights : List Token}
      {opening closing : Token} {left middle right outerLeft outerRight : List (Node Leaf)}
      (houter : RunAt outer before (opening :: (lefts ++ (run ++ rights)) ++ [closing]) after
        outerLeft [.branch kind (left ++ (middle ++ right))] outerRight)
      (hopening : opening.kind = (bracketKinds kind).1) (hlefts : DerivesNodes lefts left)
      (hrun : DerivesNodes run middle) (hrights : DerivesNodes rights right)
      (hcount : leastNodes kind ≤ (left ++ (middle ++ right)).length)
      (hclosing : closing.kind = (bracketKinds kind).2) :
      RunAt kind (before ++ opening :: lefts) run (rights ++ closing :: after) left middle right

namespace RunAt

variable {kind : ConnectionKind} {before run after : List Token}
  {left middle right : List (Node Leaf)}

/-- Before a run, after it and in it, the scanner is outside a parameter block. -/
theorem closed (h : RunAt kind before run after left middle right) :
    Closed before ∧ Closed run ∧ Closed after := by
  induction h with
  | root hbefore hrun hafter => exact ⟨hbefore.closed, hrun.closed, hafter.closed⟩
  | inside _ hopening hlefts hrun hrights _ hclosing ih =>
    obtain ⟨hbefore, -, hafter⟩ := ih
    exact ⟨hbefore.append ((closed_opening hopening).append hlefts.closed), hrun.closed,
      hrights.closed.append ((closed_closing hclosing).append hafter)⟩

/-- Other nodes in place of a run give the same circuit if they contribute the same to their
    connection. The induction goes from the run to the connections around it. -/
theorem exists_replace (h : RunAt kind before run after left middle right) {run' : List Token}
    {middle' : List (Node Leaf)} (hrun' : DerivesNodes run' middle') (hne : middle' ≠ [])
    (hcount : leastNodes kind ≤ (left ++ (middle ++ right)).length →
      leastNodes kind ≤ (left ++ (middle' ++ right)).length)
    (htrees : (middle'.map tree).flatMap (Connection.splice kind) =
      (middle.map tree).flatMap (Connection.splice kind))
    (hleaves : middle'.flatMap Node.leaves = middle.flatMap Node.leaves) :
    ∃ nodes nodes', DerivesNodes (before ++ (run ++ after)) nodes ∧
      DerivesNodes (before ++ (run' ++ after)) nodes' ∧ nodes' ≠ [] ∧
      rootChildren nodes' = rootChildren nodes ∧
      nodes'.flatMap Node.leaves = nodes.flatMap Node.leaves := by
  induction h generalizing run' middle' with
  | @root before run after left middle right hbefore hrun hafter =>
    refine ⟨left ++ (middle ++ right), left ++ (middle' ++ right),
      hbefore.append (hrun.append hafter), hbefore.append (hrun'.append hafter), ?_, ?_, ?_⟩
    · simp [hne]
    · simp only [rootChildren, List.map_append, List.flatMap_append, htrees]
    · simp only [List.flatMap_append, hleaves]
  | @inside outer kind before after lefts run rights opening closing left middle right _ _ houter
      hopening hlefts hrun hrights hleast hclosing ih =>
    have hnode : DerivesNode (opening :: (lefts ++ (run' ++ rights)) ++ [closing])
        (.branch kind (left ++ (middle' ++ right))) :=
      .connection hopening (hlefts.append (hrun'.append hrights)) (hcount hleast) hclosing
    have htree : tree (.branch kind (left ++ (middle' ++ right))) =
        tree (.branch kind (left ++ (middle ++ right))) := by
      simp only [tree_branch, List.map_append, List.flatMap_append, htrees]
    have hsame : (Node.branch kind (left ++ (middle' ++ right))).leaves =
        (Node.branch kind (left ++ (middle ++ right))).leaves := by
      simp only [Node.leaves_branch, List.flatMap_append, hleaves]
    have hwhole := ih (.singleton hnode) (List.cons_ne_nil _ _) (fun h => by simpa using h)
      (by simp only [List.map_singleton, htree]) (by simp only [List.flatMap_singleton, hsame])
    simpa using hwhole

end RunAt

end Grammar

end CircuitCode
