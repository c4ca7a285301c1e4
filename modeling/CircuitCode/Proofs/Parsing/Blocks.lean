import CircuitCode.Proofs.Parsing.Run

/-!
# The parameter block of an element among others

An opening brace among the tokens of nodes starts the parameter block of one of their elements, and
another block may take its place (`DerivesNodes.exists_block`). If the other block has the same
definitions in another order, the circuit stays the same (`HasBlock.exists_reordered`).
-/

namespace CircuitCode

namespace Grammar

section Labels

variable {tokens : List Token} {token : Token}

theorem BlockEnd.label_eq {label : Option String} (h : BlockEnd tokens label)
    (htoken : token ∈ tokens) (hkind : token.kind = .label) : label = some token.text := by
  cases h with
  | bare hbrace =>
    obtain rfl := List.mem_singleton.mp htoken
    cases hbrace.symm.trans hkind
  | label hcolon hlabel hbrace =>
    simp only [List.mem_cons, List.not_mem_nil, or_false] at htoken
    obtain rfl | rfl | rfl := htoken
    · cases hcolon.symm.trans hkind
    · rfl
    · cases hbrace.symm.trans hkind

theorem BlockBody.label_eq {definitions : List Definition} {label : Option String}
    (h : BlockBody tokens definitions label) (htoken : token ∈ tokens)
    (hkind : token.kind = .label) : label = some token.text := by
  have hinside {tokens : List Token} {d : Definition} (h : Defines tokens d) : token ∉ tokens :=
    fun hmem => h.kind_ne (by decide) token hmem hkind
  induction h with
  | last hdefinition hclose =>
    rcases List.mem_append.mp htoken with hmem | hmem
    · exact absurd hmem (hinside hdefinition)
    · exact hclose.label_eq hmem hkind
  | cons hdefinition hcomma _ ih =>
    rcases List.mem_append.mp htoken with hmem | hmem
    · exact absurd hmem (hinside hdefinition)
    · rcases List.mem_cons.mp hmem with rfl | hmem
      · cases hcomma.symm.trans hkind
      · exact ih hmem

end Labels

mutual

/-- A label among the tokens of a node is the label of one of its elements. -/
theorem DerivesNode.exists_label {tokens : List Token} {token : Token} {node : Node Leaf}
    (h : DerivesNode tokens node) (htoken : token ∈ tokens) (hkind : token.kind = .label) :
    ∃ x ∈ node.leaves, x.label = some token.text := by
  cases h with
  | @element symbol kind block definitions label hsymbol _ hblock =>
    refine ⟨_, List.mem_singleton_self _, ?_⟩
    rcases List.mem_cons.mp htoken with rfl | hmem
    · cases hsymbol.symm.trans hkind
    · cases hblock with
      | absent => cases hmem
      | present hbrace hbody =>
        rcases List.mem_cons.mp hmem with rfl | hmem
        · cases hbrace.symm.trans hkind
        · exact hbody.label_eq hmem hkind
  | @connection opening closing inner kind children hopening hinner _ hclosing =>
    rw [Node.leaves_branch]
    rcases List.mem_cons.mp htoken with rfl | hmem
    · cases kind <;> cases hopening.symm.trans hkind
    · rcases List.mem_append.mp hmem with hmem | hmem
      · exact hinner.exists_label hmem hkind
      · obtain rfl := List.mem_singleton.mp hmem
        cases kind <;> cases hclosing.symm.trans hkind

theorem DerivesNodes.exists_label {tokens : List Token} {token : Token} {nodes : List (Node Leaf)}
    (h : DerivesNodes tokens nodes) (htoken : token ∈ tokens) (hkind : token.kind = .label) :
    ∃ x ∈ nodes.flatMap Node.leaves, x.label = some token.text := by
  cases h with
  | nil => cases htoken
  | cons hnode hrest =>
    rw [List.flatMap_cons]
    rcases List.mem_append.mp htoken with hmem | hmem
    · obtain ⟨x, hx, hlabel⟩ := hnode.exists_label hmem hkind
      exact ⟨x, List.mem_append_left _ hx, hlabel⟩
    · obtain ⟨x, hx, hlabel⟩ := hrest.exists_label hmem hkind
      exact ⟨x, List.mem_append_right _ hx, hlabel⟩

end

/-- What stands in the block of the element `x`, whose opening brace comes between the tokens
    `before` and `body`. Other definitions that make the same element may take its place. -/
structure HasBlock (before : List Token) (brace : Token) (body after : List Token) (x : Leaf)
    (nodes : List (Node Leaf)) : Prop where
  closed_before : Closed before
  closed_after : Closed after
  derives : BlockBody body x.definitions x.label
  mem : x ∈ nodes.flatMap Node.leaves
  replace : ∀ {body' : List Token} {x' : Leaf}, BlockBody body' x'.definitions x'.label →
    x'.element = x.element → ∃ nodes', DerivesNodes (before ++ brace :: (body' ++ after)) nodes' ∧
      nodes'.map (Node.map Leaf.element) = nodes.map (Node.map Leaf.element) ∧
      ∀ y ∈ nodes'.flatMap Node.leaves, y = x' ∨ y ∈ nodes.flatMap Node.leaves

namespace HasBlock

variable {before body after : List Token} {brace : Token} {x : Leaf} {nodes : List (Node Leaf)}

theorem element {symbol : Token} (hsymbol : symbol.kind = .symbol)
    (hkind : ElementKind.ofSymbol? symbol.text = some x.kind) (hbrace : brace.kind = .openBrace)
    (hbody : BlockBody body x.definitions x.label) :
    HasBlock [symbol] brace body [] x [.leaf x] where
  closed_before := closed_element hsymbol hkind .absent
  closed_after := closed_nil
  derives := hbody
  mem := List.mem_singleton_self x
  replace := by
    intro body' x' hbody' helement
    have hkind' : x'.kind = x.kind := congrArg Element.kind helement
    refine ⟨[.leaf x'], ?_, ?_, ?_⟩
    · rw [List.append_nil]
      exact .singleton (.element hsymbol (hkind.trans (congrArg some hkind'.symm))
        (.present hbrace hbody'))
    · show [Node.leaf x'.element] = [Node.leaf x.element]
      rw [helement]
    · exact List.forall_mem_singleton.mpr (.inl rfl)

theorem append_right (h : HasBlock before brace body after x nodes) {tokens : List Token}
    {right : List (Node Leaf)} (hright : DerivesNodes tokens right) :
    HasBlock before brace body (after ++ tokens) x (nodes ++ right) where
  closed_before := h.closed_before
  closed_after := h.closed_after.append hright.closed
  derives := h.derives
  mem := by
    rw [List.flatMap_append]
    exact List.mem_append_left _ h.mem
  replace := by
    intro body' x' hbody' helement
    obtain ⟨nodes', hnodes', hmap, hleaves⟩ := h.replace hbody' helement
    refine ⟨nodes' ++ right, ?_, ?_, ?_⟩
    · simpa using hnodes'.append hright
    · rw [List.map_append, List.map_append, hmap]
    · rw [List.flatMap_append, List.flatMap_append, List.forall_mem_append]
      exact ⟨fun y hy => (hleaves y hy).imp_right (List.mem_append_left _),
        fun y hy => .inr (List.mem_append_right _ hy)⟩

theorem append_left (h : HasBlock before brace body after x nodes) {tokens : List Token}
    {left : List (Node Leaf)} (hleft : DerivesNodes tokens left) :
    HasBlock (tokens ++ before) brace body after x (left ++ nodes) where
  closed_before := hleft.closed.append h.closed_before
  closed_after := h.closed_after
  derives := h.derives
  mem := by
    rw [List.flatMap_append]
    exact List.mem_append_right _ h.mem
  replace := by
    intro body' x' hbody' helement
    obtain ⟨nodes', hnodes', hmap, hleaves⟩ := h.replace hbody' helement
    refine ⟨left ++ nodes', ?_, ?_, ?_⟩
    · simpa using hleft.append hnodes'
    · rw [List.map_append, List.map_append, hmap]
    · rw [List.flatMap_append, List.flatMap_append, List.forall_mem_append]
      exact ⟨fun y hy => .inr (List.mem_append_left _ hy),
        fun y hy => (hleaves y hy).imp_right (List.mem_append_right _)⟩

/-- A block stays one when brackets are put around the nodes. -/
theorem enclosed (h : HasBlock before brace body after x nodes) {kind : ConnectionKind}
    {opening closing : Token} (hopening : opening.kind = (bracketKinds kind).1)
    (hcount : leastNodes kind ≤ nodes.length) (hclosing : closing.kind = (bracketKinds kind).2) :
    HasBlock (opening :: before) brace body (after ++ [closing]) x [.branch kind nodes] where
  closed_before := (closed_opening hopening).append h.closed_before
  closed_after := h.closed_after.append (closed_closing hclosing)
  derives := h.derives
  mem := by
    rw [List.flatMap_singleton, Node.leaves_branch]
    exact h.mem
  replace := by
    intro body' x' hbody' helement
    obtain ⟨nodes', hnodes', hmap, hleaves⟩ := h.replace hbody' helement
    have hlength : nodes'.length = nodes.length := by
      simpa using congrArg List.length hmap
    refine ⟨[.branch kind nodes'], ?_, ?_, ?_⟩
    · have hnode := DerivesNode.connection hopening hnodes' (hlength ▸ hcount) hclosing
      simpa using DerivesNodes.singleton hnode
    · simp only [List.map_singleton, Node.map_branch, hmap]
    · simpa only [List.flatMap_singleton, Node.leaves_branch] using hleaves

end HasBlock

mutual

theorem DerivesNode.exists_block {tokens before after : List Token} {brace : Token}
    {node : Node Leaf} (h : DerivesNode tokens node) (htokens : tokens = before ++ brace :: after)
    (hbrace : brace.kind = .openBrace) :
    ∃ x body rest, after = body ++ rest ∧ HasBlock before brace body rest x [node] := by
  cases h with
  | @element symbol kind block definitions label hsymbol hkind hblock =>
    cases before with
    | nil =>
      obtain ⟨rfl, -⟩ := List.cons.inj htokens
      cases hsymbol.symm.trans hbrace
    | cons first before =>
      obtain ⟨rfl, hsplit⟩ := List.cons.inj htokens
      cases hblock with
      | absent => simp at hsplit
      | present hopen hbody =>
        cases before with
        | nil =>
          obtain ⟨rfl, rfl⟩ := List.cons.inj hsplit
          exact ⟨⟨kind, definitions, label⟩, _, [], (List.append_nil _).symm,
            .element hsymbol hkind hopen hbody⟩
        | cons second before =>
          obtain ⟨-, rfl⟩ := List.cons.inj hsplit
          exact absurd hbrace (hbody.kind_ne (by decide) brace (by simp))
  | @connection opening closing inner kind children hopening hinner hcount hclosing =>
    cases before with
    | nil =>
      obtain ⟨rfl, -⟩ := List.cons.inj htokens
      exact absurd (hopening.symm.trans hbrace) (bracketKinds_fst_ne_openBrace kind)
    | cons first before =>
      obtain ⟨rfl, hsplit⟩ := List.cons.inj htokens
      obtain ⟨more, hmore, rfl⟩ | ⟨more, rfl, hmore⟩ :=
        append_cons_eq_append_iff.mp hsplit.symm
      · obtain ⟨x, body, rest, rfl, hblock⟩ := hinner.exists_block hmore hbrace
        exact ⟨x, body, rest ++ [closing], List.append_assoc _ _ _,
          hblock.enclosed hopening hcount hclosing⟩
      · obtain rfl : closing = brace := by
          cases more with
          | nil => exact (List.cons.inj hmore).1
          | cons second more => simp at hmore
        exact absurd (hclosing.symm.trans hbrace) (bracketKinds_snd_ne_openBrace kind)

/-- An opening brace is followed by the block of an element. -/
theorem DerivesNodes.exists_block {tokens before after : List Token} {brace : Token}
    {nodes : List (Node Leaf)} (h : DerivesNodes tokens nodes)
    (htokens : tokens = before ++ brace :: after) (hbrace : brace.kind = .openBrace) :
    ∃ x body rest, after = body ++ rest ∧ HasBlock before brace body rest x nodes := by
  cases h with
  | nil => simp at htokens
  | cons hnode hrest =>
    obtain ⟨more, hmore, rfl⟩ | ⟨more, rfl, hmore⟩ := append_cons_eq_append_iff.mp htokens.symm
    · obtain ⟨x, body, rest, rfl, hblock⟩ := hnode.exists_block hmore hbrace
      exact ⟨x, body, rest ++ _, List.append_assoc _ _ _, hblock.append_right hrest⟩
    · obtain ⟨x, body, rest, rfl, hblock⟩ := hrest.exists_block hmore hbrace
      exact ⟨x, body, rest, rfl, hblock.append_left (.singleton hnode)⟩

end

section Order

/-- Where names are not repeated, the order does not matter to a search by name. -/
theorem find?_eq_of_perm {α : Type} {nameOf : α → String} {as as' : List α} (hperm : as.Perm as')
    (h : (as.map nameOf).Nodup) (name : String) :
    (as.find? fun a => nameOf a == name) = as'.find? fun a => nameOf a == name := by
  have h' : (as'.map nameOf).Nodup := (hperm.map nameOf).nodup_iff.mp h
  refine Option.ext fun a => ?_
  rw [find?_eq_some_iff_of_nodup h, find?_eq_some_iff_of_nodup h', hperm.mem_iff]

variable {x x' : Leaf} (hkind : x'.kind = x.kind) (hlabel : x'.label = x.label)
  (hperm : x.definitions.Perm x'.definitions)
include hkind hlabel hperm

/-- The element does not depend on the order in which its parameters are given. -/
theorem Leaf.element_eq_of_perm (hx : x.Valid) : x'.element = x.element := by
  have hparameter (p : ParameterDefinition) : x'.parameter p = x.parameter p := by
    rw [parameter, parameter, find?_eq_of_perm hperm hx.distinct]
  rw [element, element, hkind, hlabel, funext hparameter]

theorem Leaf.Valid.of_perm (hx : x.Valid) : x'.Valid where
  names d hd := hkind ▸ hx.names d (hperm.mem_iff.mpr hd)
  distinct := (hperm.map Definition.name).nodup_iff.mp hx.distinct
  ordered d hd := hkind ▸ hx.ordered d (hperm.mem_iff.mpr hd)
  label := hlabel ▸ hx.label

end Order

/-- The circuit does not depend on the order of the definitions in a block. -/
theorem HasBlock.exists_reordered {before body body' after : List Token} {brace : Token} {x : Leaf}
    {nodes : List (Node Leaf)} (h : HasBlock before brace body after x nodes)
    {definitions : List Definition} (hbody' : BlockBody body' definitions x.label)
    (hperm : x.definitions.Perm definitions) (hne : nodes ≠ []) (hvalid : Valid nodes) :
    ∃ nodes', DerivesNodes (before ++ brace :: (body' ++ after)) nodes' ∧ nodes' ≠ [] ∧
      Valid nodes' ∧ circuit nodes' = circuit nodes := by
  let reordered : Leaf := ⟨x.kind, definitions, x.label⟩
  have hleaves : ∀ y ∈ nodes.flatMap Node.leaves, y.Valid := by
    intro y hy
    obtain ⟨node, hnode, hy⟩ := List.mem_flatMap.mp hy
    exact hvalid node hnode y hy
  have hx := hleaves x h.mem
  have helement : reordered.element = x.element := Leaf.element_eq_of_perm rfl rfl hperm hx
  obtain ⟨nodes', hnodes', hmap, hleaves'⟩ := h.replace hbody' helement
  refine ⟨nodes', hnodes', ?_, ?_, ?_⟩
  · rintro rfl
    exact hne (List.map_eq_nil_iff.mp hmap.symm)
  · intro node hnode y hy
    obtain rfl | hy := hleaves' y (List.mem_flatMap.mpr ⟨node, hnode, hy⟩)
    · exact Leaf.Valid.of_perm (x := x) rfl rfl hperm hx
    · exact hleaves y hy
  · have htrees := congrArg (List.map Node.spliced) hmap
    simp only [List.map_map] at htrees
    have hroot : rootChildren nodes' = rootChildren nodes :=
      congrArg (List.flatMap (Connection.splice .series)) htrees
    rw [circuit_eq, circuit_eq, hroot]

end Grammar

end CircuitCode
