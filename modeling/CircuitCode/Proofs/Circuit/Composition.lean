import CircuitCode.Proofs.Circuit.Decoding
import CircuitCode.Proofs.Parsing.Places
import CircuitCode.Proofs.Parsing.Run
import CircuitCode.Proofs.Parsing.Unambiguous

/-!
# Putting texts together

Where two texts are accepted, their concatenation is, and it stands for the nodes of the first and
then those of the second; and brackets around nodes of one text that stand one after the other
change nothing, as long as the text with the brackets has as many nodes as it needs
(`parse_composition`).
-/

namespace CircuitCode

open Grammar

/-- A circuit whose root has the given children, with its elements numbered anew. -/
structure Circuit.Renumbers (c : Circuit) (children : List (Node Element)) : Prop where
  series : c.root.kind = .series
  children : c.root.children.map (Node.map Element.anonymous) =
    children.map (Node.map Element.anonymous)
  numbered : Numbered c.elements

namespace Grammar

/-- A text is parsed as the circuit that its tokens derive, wherever these stand. -/
theorem parse_eq_of_scans {text : String} {tokens : List Token} {nodes : List (Node Leaf)}
    (hscans : Scans .outside text.toList [] (tokens.map Token.lexeme) .outside)
    (hnodes : DerivesNodes tokens nodes) (hne : nodes ≠ []) (hvalid : Valid nodes) :
    parse text = .ok (circuit nodes) := by
  obtain ⟨hstray, hlexemes⟩ := hscans.tokenize_eq
  have hlabels := (labelsTrimmed_tokenize text).of_lexemes hlexemes
  have hparse : parseTokens 0 tokens = .ok (circuit nodes) :=
    (parseTokens_eq_ok_iff hlabels).mpr ⟨nodes, hne, hnodes, hvalid, rfl⟩
  have hagree : (parse text).mapError ParseError.kindName =
      (parseTokens 0 tokens).mapError ParseError.kindName := by
    rw [parse_of_stray hstray]
    exact parseTokens_of_agree (agree_of_lexemes hlexemes)
  rw [hparse] at hagree
  cases htext : parse text with
  | ok c =>
    rw [htext] at hagree
    exact congrArg Except.ok (Except.ok.inj hagree)
  | error e =>
    rw [htext] at hagree
    cases hagree

/-- The nodes of an accepted text, and how its tokens are scanned before another text. -/
theorem exists_of_parse {text : String} {c : Circuit} (h : parse text = .ok c) :
    ∃ nodes, nodes ≠ [] ∧ DerivesNodes (tokenize text).tokens nodes ∧ Valid nodes ∧
      c = circuit nodes ∧ ∀ rest : List Char, rest.head?.any Char.isLower = false →
        Scans .outside text.toList rest ((tokenize text).tokens.map Token.lexeme) .outside := by
  obtain ⟨hstray, nodes, hne, hnodes, hvalid, rfl⟩ := parse_eq_ok_iff.mp h
  have hscan : scanFrom .outside (.start text.toList) = ⟨(tokenize text).tokens, none⟩ := by
    rw [← hstray]
    rfl
  exact ⟨nodes, hne, hnodes, hvalid, rfl, hnodes.closed.scans hscan⟩

/-- The symbol of a kind does not start with a lower case letter. -/
theorem head?_of_ofSymbol? {symbol : String} {kind : ElementKind}
    (h : ElementKind.ofSymbol? symbol = some kind) :
    symbol.toList.head?.any Char.isLower = false := by
  have hsymbol := List.find?_some h
  rw [beq_iff_eq] at hsymbol
  rw [← hsymbol]
  cases kind <;> rfl

theorem DerivesNode.ofSymbol?_head {token : Token} {tokens taken rest : List Token}
    {node : Node Leaf} (h : DerivesNode taken node) (hcons : token :: tokens = taken ++ rest)
    (hsymbol : token.kind = .symbol) : ∃ kind, ElementKind.ofSymbol? token.text = some kind := by
  cases h with
  | element _ hkind =>
    obtain ⟨rfl, -⟩ := List.cons.inj hcons
    exact ⟨_, hkind⟩
  | connection hopening =>
    obtain ⟨rfl, -⟩ := List.cons.inj hcons
    exact absurd (hsymbol.symm.trans hopening) (symbol_ne_bracketKinds_fst _)

/-- Neither does an accepted text, so it does not continue a symbol before it. -/
theorem head?_of_parse {text : String} {c : Circuit} (h : parse text = .ok c) :
    text.toList.head?.any Char.isLower = false := by
  obtain ⟨hstray, nodes, hne, hnodes, -, -⟩ := parse_eq_ok_iff.mp h
  cases hcons : text.toList with
  | nil => rfl
  | cons first more =>
    by_contra hlower
    rw [List.head?_cons, Option.any_some, Bool.not_eq_false] at hlower
    have hblank := Lexeme.isBlank_of_isIdentifierChar (Lexeme.isIdentifierChar_of_isLower hlower)
    have hstart : (Cursor.start text.toList).rest = first :: more := hcons
    obtain ⟨kind, lexeme, trailing, left, hsplit, hlexes, next, -, hscan⟩ :=
      exists_lexes_of_not_isBlank hstart hblank hstray
    -- the first token is a symbol that starts with the letter
    rw [tokenize, hscan] at hnodes
    cases hlexes with
    | lexeme _ _ hlexeme _ hnext =>
      obtain ⟨d, lexeme, rfl⟩ := List.exists_cons_of_ne_nil hlexeme
      obtain ⟨rfl, -⟩ := List.cons.inj hsplit
      rw [List.cons_append, Lexeme.next?_cons_eq_some_iff] at hnext
      obtain rfl := Lexeme.kind_of_isLower hlower hnext
      generalize htokens : Token.mk .symbol _ _ _ :: _ = tokens at hnodes
      cases hnodes with
      | nil => cases htokens
      | cons hnode =>
        obtain ⟨kind, hkind⟩ := hnode.ofSymbol?_head htokens rfl
        have hhead := head?_of_ofSymbol? hkind
        rw [String.toList_ofList, List.head?_cons, Option.any_some, hlower] at hhead
        cases hhead

theorem map_anonymous_children_circuit (nodes : List (Node Leaf)) :
    (circuit nodes).root.children.map (Node.map Element.anonymous) =
      (rootChildren nodes).map (Node.map Element.anonymous) := by
  have hroot := Circuit.map_anonymous_root_circuit nodes
  rw [Connection.toNode, Node.map_branch, Node.map_branch, Node.branch.injEq] at hroot
  exact hroot.2

theorem renumbers_of_parse {text : String} {nodes : List (Node Leaf)}
    {children : List (Node Element)} (h : parse text = .ok (circuit nodes))
    (hchildren : (rootChildren nodes).map (Node.map Element.anonymous) =
      children.map (Node.map Element.anonymous)) : (circuit nodes).Renumbers children where
  series := Circuit.kind_root_of_parse h
  children := (map_anonymous_children_circuit nodes).trans hchildren
  numbered := Circuit.numbered_of_parse h

theorem rootChildren_append (nodes nodes' : List (Node Leaf)) :
    rootChildren (nodes ++ nodes') = rootChildren nodes ++ rootChildren nodes' := by
  rw [rootChildren, List.map_append, List.flatMap_append]
  rfl

theorem parse_append {s t : String} {cs ct : Circuit} (hs : parse s = .ok cs)
    (ht : parse t = .ok ct) :
    ∃ c, parse (s ++ t) = .ok c ∧ c.Renumbers (cs.root.children ++ ct.root.children) := by
  obtain ⟨nodes, hne, hnodes, hvalid, rfl, hscans⟩ := exists_of_parse hs
  obtain ⟨nodes', -, hnodes', hvalid', rfl, hscans'⟩ := exists_of_parse ht
  have hparse : parse (s ++ t) = .ok (circuit (nodes ++ nodes')) := by
    refine parse_eq_of_scans ?_ (hnodes.append hnodes') (by simp [hne]) ?_
    · rw [String.toList_append, List.map_append]
      have hlower := head?_of_parse ht
      rw [← List.append_nil t.toList] at hlower
      exact (hscans _ hlower).append (hscans' [] rfl)
    · exact List.forall_mem_append.mpr ⟨hvalid, hvalid'⟩
  refine ⟨_, hparse, renumbers_of_parse hparse ?_⟩
  rw [rootChildren_append, List.map_append, List.map_append, map_anonymous_children_circuit,
    map_anonymous_children_circuit]

/-- The tokens of brackets around a connection, at no place in particular. -/
def enclosed (kind : ConnectionKind) (tokens : List Token) : List Token :=
  ⟨(bracketKinds kind).1, kind.brackets.1, 0, 0⟩ ::
    (tokens ++ [⟨(bracketKinds kind).2, kind.brackets.2, 0, 0⟩])

theorem DerivesNodes.enclosed {tokens : List Token} {kind : ConnectionKind}
    {nodes : List (Node Leaf)} (h : DerivesNodes tokens nodes)
    (hcount : leastNodes kind ≤ nodes.length) :
    DerivesNodes (Grammar.enclosed kind tokens) [.branch kind nodes] :=
  .singleton (.connection rfl h hcount rfl)

theorem scans_enclosed {text rest : List Char} {tokens : List Token} (kind : ConnectionKind)
    (h : ∀ rest : List Char, rest.head?.any Char.isLower = false →
      Scans .outside text rest (tokens.map Token.lexeme) .outside) :
    Scans .outside (kind.brackets.1.toList ++ (text ++ kind.brackets.2.toList)) rest
      ((enclosed kind tokens).map Token.lexeme) .outside := by
  rw [enclosed, List.map_cons, List.map_append]
  refine Scans.cons .opening (Scans.append (h _ ?_) .closing)
  cases kind <;> rfl

theorem parse_branches {s t : String} {cs ct : Circuit} (hs : parse s = .ok cs)
    (ht : parse t = .ok ct) :
    ∃ c, parse ("([" ++ s ++ "][" ++ t ++ "])") = .ok c ∧ c.Renumbers
      [.branch .parallel [.branch .series cs.root.children, .branch .series ct.root.children]] := by
  obtain ⟨nodes, hne, hnodes, hvalid, rfl, hscans⟩ := exists_of_parse hs
  obtain ⟨nodes', hne', hnodes', hvalid', rfl, hscans'⟩ := exists_of_parse ht
  have hseries {nodes : List (Node Leaf)} (h : nodes ≠ []) :
      leastNodes .series ≤ nodes.length := List.length_pos_iff.mpr h
  have hbranches := (hnodes.enclosed (hseries hne)).append (hnodes'.enclosed (hseries hne'))
  have htext : ("([" ++ s ++ "][" ++ t ++ "])").toList =
      ConnectionKind.parallel.brackets.1.toList ++
        (((ConnectionKind.series.brackets.1.toList ++
            (s.toList ++ ConnectionKind.series.brackets.2.toList)) ++
          (ConnectionKind.series.brackets.1.toList ++
            (t.toList ++ ConnectionKind.series.brackets.2.toList))) ++
          ConnectionKind.parallel.brackets.2.toList) := by
    simp [ConnectionKind.brackets]
  have hparse : parse ("([" ++ s ++ "][" ++ t ++ "])") =
      .ok (circuit [.branch .parallel [.branch .series nodes, .branch .series nodes']]) := by
    refine parse_eq_of_scans ?_ (hbranches.enclosed (Nat.le_refl 2)) (List.cons_ne_nil _ _) ?_
    · rw [htext]
      refine scans_enclosed .parallel fun rest _ => ?_
      rw [List.map_append]
      exact (scans_enclosed .series hscans).append (scans_enclosed .series hscans')
    · refine List.forall_mem_singleton.mpr (valid_branch.mpr ?_)
      intro node hnode
      rcases List.mem_pair.mp hnode with rfl | rfl
      · exact valid_branch.mpr hvalid
      · exact valid_branch.mpr hvalid'
  refine ⟨_, hparse, renumbers_of_parse hparse ?_⟩
  have hroot : rootChildren [.branch .parallel [.branch .series nodes, .branch .series nodes']] =
      [.branch .parallel [.branch .series (rootChildren nodes),
        .branch .series (rootChildren nodes')]] := by
    simp [rootChildren, tree_branch, Connection.splice]
  simp only [hroot, Node.map_branch, List.map_cons, List.map_nil,
    map_anonymous_children_circuit]

/-- Brackets around nodes that stand one after the other in a connection. -/
theorem tree_branch_run (kind : ConnectionKind) (nodes : List (Node Leaf)) :
    ([Node.branch kind nodes].map tree).flatMap (Connection.splice kind) =
      (nodes.map tree).flatMap (Connection.splice kind) := by
  simp [tree_branch, Connection.splice]

/-- Brackets around a run of nodes change nothing about the circuit. -/
theorem RunAt.exists_enclosed {kind : ConnectionKind} {before run after : List Token}
    {left middle right nodes : List (Node Leaf)} (h : RunAt kind before run after left middle right)
    (hleast : leastNodes kind ≤ middle.length) (hpart : kind = .parallel → left ++ right ≠ [])
    (hnodes : DerivesNodes (before ++ (run ++ after)) nodes) (hvalid : Valid nodes) :
    ∃ nodes', nodes' ≠ [] ∧ DerivesNodes (before ++ (enclosed kind run ++ after)) nodes' ∧
      Valid nodes' ∧ circuit nodes' = circuit nodes := by
  have hrun : DerivesNodes run middle := by
    cases h with
    | root _ hrun => exact hrun
    | inside _ _ _ hrun => exact hrun
  have hcount : leastNodes kind ≤ (left ++ ([Node.branch kind middle] ++ right)).length := by
    cases kind with
    | series =>
      simp only [leastNodes, List.length_append, List.length_singleton]
      omega
    | parallel =>
      have hothers := List.length_pos_iff.mpr (hpart rfl)
      simp only [leastNodes, List.length_append, List.length_singleton] at hothers ⊢
      omega
  obtain ⟨nodes', nodes'', hnodes', hnodes'', hne, hroot, hleaves⟩ :=
    h.exists_replace (hrun.enclosed hleast) (List.cons_ne_nil _ _) (fun _ => hcount)
      (tree_branch_run kind middle) (by simp [Node.leaves_branch])
  obtain rfl := hnodes.unique hnodes'
  refine ⟨nodes'', hne, hnodes'', ?_, ?_⟩
  · intro node hnode x hx
    have hmem : x ∈ nodes.flatMap Node.leaves := by
      rw [← hleaves]
      exact List.mem_flatMap.mpr ⟨node, hnode, hx⟩
    obtain ⟨node', hnode', hx'⟩ := List.mem_flatMap.mp hmem
    exact hvalid node' hnode' x hx'
  · rw [circuit_eq, circuit_eq, hroot]

/-- A text is scanned piece by piece before, in and after a run, and what follows a piece does not
    count. -/
theorem scans_pieces {front inner back : List Char} {before run after : List Token}
    (hscan : scanFrom .outside (.start (front ++ (inner ++ back))) =
      ⟨before ++ (run ++ after), none⟩)
    (hclosed : Closed before ∧ Closed run ∧ Closed after)
    (hbefore : ∀ token ∈ before, token.stop ≤ byteLength front)
    (hinner : ∀ token ∈ run,
      byteLength front ≤ token.position ∧ token.stop ≤ byteLength (front ++ inner))
    (hafter : ∀ token ∈ after, byteLength (front ++ inner) ≤ token.position) :
    ∀ rest : List Char, rest.head?.any Char.isLower = false →
      Scans .outside front rest (before.map Token.lexeme) .outside ∧
        Scans .outside inner rest (run.map Token.lexeme) .outside ∧
        Scans .outside back rest (after.map Token.lexeme) .outside := by
  rw [byteLength_append] at hinner hafter
  obtain ⟨hfront, column, hscan'⟩ := by
    refine hclosed.1.cut rfl hscan ?_ ?_
    · intro token htoken
      have := hbefore token htoken
      dsimp only [Cursor.start]
      omega
    · refine List.forall_mem_append.mpr ⟨fun token htoken => ?_, fun token htoken => ?_⟩
      · have := (hinner token htoken).1
        dsimp only [Cursor.start]
        omega
      · have := hafter token htoken
        dsimp only [Cursor.start]
        omega
  obtain ⟨hrun, column', hscan''⟩ := by
    refine hclosed.2.1.cut rfl hscan' ?_ ?_
    · intro token htoken
      have := (hinner token htoken).2
      dsimp only [Cursor.start]
      omega
    · intro token htoken
      have := hafter token htoken
      dsimp only [Cursor.start]
      omega
  intro rest hlower
  exact ⟨hfront rest hlower, hrun rest hlower, hclosed.2.2.scans hscan'' rest hlower⟩

end Grammar

/-- In the text `front ++ inner ++ back`, the part `inner` has the tokens of nodes that stand one
    after the other in a connection of the given kind, at any depth: of one node or more if this is
    a series, and of two or more but not all if the nodes are the branches of a parallel
    connection. -/
inductive Wrappable (kind : ConnectionKind) (front inner back : String) : Prop where
  | run {before run after : List Token} {left middle right : List (Node Leaf)}
      (hrun : RunAt kind before run after left middle right)
      (htokens : (tokenize (front ++ inner ++ back)).tokens = before ++ (run ++ after))
      (hbefore : ∀ token ∈ before, token.stop ≤ byteLength front.toList)
      (hinner : ∀ token ∈ run, byteLength front.toList ≤ token.position ∧
        token.stop ≤ byteLength (front.toList ++ inner.toList))
      (hafter : ∀ token ∈ after, byteLength (front.toList ++ inner.toList) ≤ token.position)
      (hleast : leastNodes kind ≤ middle.length) (hpart : kind = .parallel → left ++ right ≠ [])

/-- Brackets around a run of nodes change nothing. -/
theorem Wrappable.parse_eq {kind : ConnectionKind} {front inner back : String} {c : Circuit}
    (h : Wrappable kind front inner back) (hparse : parse (front ++ inner ++ back) = .ok c) :
    parse (front ++ kind.brackets.1 ++ inner ++ kind.brackets.2 ++ back) = .ok c := by
  obtain ⟨hstray, nodes, -, hnodes, hvalid, rfl⟩ := parse_eq_ok_iff.mp hparse
  cases h with
  | @run before run after left middle right hrun htokens hbefore hinner hafter hleast hpart =>
    have hscan : scanFrom .outside (.start (front.toList ++ (inner.toList ++ back.toList))) =
        ⟨before ++ (run ++ after), none⟩ := by
      rw [← htokens, ← hstray, ← List.append_assoc, ← String.toList_append, ← String.toList_append]
      rfl
    have hpieces := scans_pieces hscan hrun.closed hbefore hinner hafter
    rw [htokens] at hnodes
    obtain ⟨nodes', hne, hnodes', hvalid', hsame⟩ := hrun.exists_enclosed hleast hpart hnodes hvalid
    rw [← hsame]
    refine parse_eq_of_scans ?_ hnodes' hne hvalid'
    have htext : (front ++ kind.brackets.1 ++ inner ++ kind.brackets.2 ++ back).toList =
        front.toList ++ ((kind.brackets.1.toList ++ (inner.toList ++ kind.brackets.2.toList)) ++
          back.toList) := by
      simp
    rw [htext, List.map_append, List.map_append]
    refine Scans.append (hpieces _ ?_).1 (Scans.append ?_ (hpieces [] rfl).2.2)
    · cases kind <;> rfl
    · exact scans_enclosed kind fun rest hrest => (hpieces rest hrest).2.1

/-- Texts are put together as circuits are. Two texts that are accepted may be written one after the
    other, which puts their circuits in series, and they may be made the two branches of a parallel
    connection; the elements are numbered anew and are otherwise the same. Brackets around some
    nodes of an accepted text, wherever these stand, leave the circuit as it is. -/
theorem parse_composition (s t : String) (cs ct : Circuit) (hs : parse s = .ok cs)
    (ht : parse t = .ok ct) :
    (∃ c, parse (s ++ t) = .ok c ∧ c.Renumbers (cs.root.children ++ ct.root.children)) ∧
      (∃ c, parse ("([" ++ s ++ "][" ++ t ++ "])") = .ok c ∧ c.Renumbers
        [.branch .parallel
          [.branch .series cs.root.children, .branch .series ct.root.children]]) ∧
      ∀ kind front inner back, s = front ++ inner ++ back → Wrappable kind front inner back →
        parse (front ++ kind.brackets.1 ++ inner ++ kind.brackets.2 ++ back) = .ok cs := by
  refine ⟨parse_append hs ht, parse_branches hs ht, ?_⟩
  rintro kind front inner back rfl hwrappable
  exact hwrappable.parse_eq hs

/-- Two of the three branches of a parallel connection may be put in brackets. -/
theorem wrappable_branches : Wrappable .parallel "R(" "CL" "Q)" := by
  have hleaf (kind : ElementKind) (position column : Nat) :
      DerivesNodes [⟨.symbol, kind.symbol, position, column⟩] [.leaf ⟨kind, [], none⟩] :=
    .singleton (.element rfl kind.ofSymbol?_symbol .absent)
  have hrun := (hleaf .capacitor 2 3).append (hleaf .inductor 3 4)
  have hrights := hleaf .constantPhase 4 5
  have hconnection := @DerivesNode.connection ⟨.openParen, "(", 1, 2⟩ ⟨.closeParen, ")", 5, 6⟩ _
    .parallel _ rfl (DerivesNodes.nil.append (hrun.append hrights)) (by decide) rfl
  have hplace := RunAt.inside (.root (hleaf .resistor 0 1) (.singleton hconnection) .nil) rfl .nil
    hrun hrights (by decide) rfl
  exact .run hplace (by decide +kernel) (by decide +kernel) (by decide +kernel) (by decide +kernel)
    (by decide) (by simp)

/-- A ladder and two elements in series. -/
theorem parse_composition_ladder :
    ∃ cs ct, parse "R(CLQ)" = .ok cs ∧ parse "CL" = .ok ct ∧
      (∃ c, parse "R(CLQ)CL" = .ok c ∧ c.Renumbers (cs.root.children ++ ct.root.children)) ∧
      (∃ c, parse "([R(CLQ)][CL])" = .ok c ∧ c.Renumbers
        [.branch .parallel
          [.branch .series cs.root.children, .branch .series ct.root.children]]) ∧
      parse "R((CL)Q)" = .ok cs := by
  have hs : parse "R(CLQ)" = .ok ((parse "R(CLQ)").toOption.getD ⟨⟨.series, []⟩⟩) := by
    apply Circuit.parse_eq_ok_getD
    decide +kernel
  have ht : parse "CL" = .ok ((parse "CL").toOption.getD ⟨⟨.series, []⟩⟩) := by
    apply Circuit.parse_eq_ok_getD
    decide +kernel
  obtain ⟨happend, hbranches, hwrap⟩ := parse_composition _ _ _ _ hs ht
  exact ⟨_, _, hs, ht, happend, hbranches, hwrap .parallel "R(" "CL" "Q)" rfl wrappable_branches⟩

end CircuitCode
