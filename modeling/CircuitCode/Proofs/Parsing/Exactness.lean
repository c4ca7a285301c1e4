import CircuitCode.Proofs.Parsing.Machine

/-!
# The parser accepts exactly the grammar

`parse` succeeds on a text exactly when its tokens derive nodes whose elements are valid, and the
circuit is then the one that these nodes stand for: the parser splices connections as it closes
them, `Grammar.circuit` from the root down. What this circuit looks like is said by
`Grammar.circuit_canonical`. A parser that is used for several texts does the same, whatever it was
used for before.
-/

namespace CircuitCode

open Grammar

namespace Items

variable {stop : Nat}

mutual

/-- The machine passes over a derived node and adds its tree. -/
theorem parseFrom_node {tokens : List Token} {node : Node Leaf} (h : DerivesNode tokens node)
    (hvalid : ∀ x ∈ node.leaves, x.Valid) (outer : List OpenConnection)
    (nodes : List (Node Element)) (rest : List Token) (hlabels : LabelsTrimmed (tokens ++ rest))
    (hrest : rest.head?.any TokenReader.isOpenBrace = false) :
    parseFrom stop outer nodes (tokens ++ rest) =
      parseFrom stop outer (nodes ++ [tree node]) rest := by
  cases h with
  | @element symbol kind block definitions label hsymbol hkind hblock =>
    rw [List.cons_append, tree_leaf]
    exact parseFrom_symbol hsymbol (TokenReader.run_element_of_derives hkind hblock
      (valid_leaf.mp hvalid) (hlabels.of_suffix (List.suffix_cons _ _)) hrest)
  | @connection opening closing inner kind children hopening hinner hcount hclosing =>
    have hnodes := parseFrom_nodes hinner (valid_branch.mp hvalid)
      (⟨kind, opening.position, nodes⟩ :: outer) [] (closing :: rest)
      (hlabels.of_suffix (by simp))
      (by simp [TokenReader.isOpenBrace, hclosing, bracketKinds_snd_ne_openBrace])
    have hjoin : Connection.ofChildren kind (children.map tree) =
        .ok ⟨kind, (children.map tree).flatMap (Connection.splice kind)⟩ :=
      Connection.ofChildren_eq_ok_iff.mpr ⟨by simpa using hcount, rfl⟩
    rw [List.cons_append, List.append_assoc, List.singleton_append, parseFrom_opening hopening,
      hnodes, List.nil_append, parseFrom_closing hclosing hjoin, tree_branch]
    rfl

/-- The machine passes over derived nodes and adds their trees. -/
theorem parseFrom_nodes {tokens : List Token} {raw : List (Node Leaf)}
    (h : DerivesNodes tokens raw) (hvalid : Valid raw) (outer : List OpenConnection)
    (nodes : List (Node Element)) (rest : List Token) (hlabels : LabelsTrimmed (tokens ++ rest))
    (hrest : rest.head?.any TokenReader.isOpenBrace = false) :
    parseFrom stop outer nodes (tokens ++ rest) =
      parseFrom stop outer (nodes ++ raw.map tree) rest := by
  cases h with
  | nil => simp
  | @cons first tokens node raw hnode hnodes =>
    rw [valid_cons] at hvalid
    rw [List.append_assoc] at hlabels ⊢
    rw [parseFrom_node hnode hvalid.1 _ _ _ hlabels (hnodes.head?_append hrest),
      parseFrom_nodes hnodes hvalid.2 _ _ _ (hlabels.of_suffix (List.suffix_append _ _)) hrest]
    simp

end

/-- What is left of an accepting run: the nodes up to the end, or up to the bracket that closes the
    innermost connection, and then the rest of the run. -/
def Accounts (stop : Nat) (outer : List OpenConnection) (nodes : List (Node Element))
    (tokens : List Token) (result : List (Node Element)) : Prop :=
  match outer with
  | [] => ∃ raw, DerivesNodes tokens raw ∧ Valid raw ∧ result = nodes ++ raw.map tree
  | inner :: outer =>
    ∃ taken closing rest raw, tokens = taken ++ closing :: rest ∧
      closing.kind = (bracketKinds inner.kind).2 ∧ DerivesNodes taken raw ∧ Valid raw ∧
      leastNodes inner.kind ≤ (nodes ++ raw.map tree).length ∧
      parseFrom stop outer
        (inner.before ++
          [.branch inner.kind ((nodes ++ raw.map tree).flatMap (Connection.splice inner.kind))])
        rest = .ok result

/-- A node more in front of what is accounted for. -/
theorem Accounts.cons {outer : List OpenConnection} {nodes result : List (Node Element)}
    {first tokens : List Token} {node : Node Leaf}
    (h : Accounts stop outer (nodes ++ [tree node]) tokens result) (hnode : DerivesNode first node)
    (hvalid : ∀ x ∈ node.leaves, x.Valid) : Accounts stop outer nodes (first ++ tokens) result := by
  cases outer with
  | nil =>
    obtain ⟨raw, hraw, hvalid', rfl⟩ := h
    exact ⟨node :: raw, .cons hnode hraw, valid_cons.mpr ⟨hvalid, hvalid'⟩, by simp⟩
  | cons inner outer =>
    obtain ⟨taken, closing, rest, raw, rfl, hclosing, hraw, hvalid', hcount, hrest⟩ := h
    rw [List.append_assoc, List.singleton_append, ← List.map_cons] at hcount hrest
    exact ⟨first ++ taken, closing, rest, node :: raw, by simp, hclosing, .cons hnode hraw,
      valid_cons.mpr ⟨hvalid, hvalid'⟩, hcount, hrest⟩

/-- All that the machine accepts is derived. The induction is on the number of tokens, since the
    run that follows a closed connection is again one of the machine. -/
theorem accounts_of_parseFrom (length : Nat) {outer : List OpenConnection}
    {nodes result : List (Node Element)} {tokens : List Token} (hlength : tokens.length ≤ length)
    (hlabels : LabelsTrimmed tokens) (h : parseFrom stop outer nodes tokens = .ok result) :
    Accounts stop outer nodes tokens result := by
  induction length generalizing outer nodes tokens with
  | zero =>
    obtain rfl : tokens = [] := by simpa using hlength
    cases outer with
    | nil =>
      rw [parseFrom_nil, Except.ok.injEq] at h
      exact ⟨[], .nil, valid_nil, by simp [h]⟩
    | cons inner outer => exact absurd h parseFrom_open_nil_ne_ok
  | succ length ih =>
    cases tokens with
    | nil => exact ih (by simp) hlabels h
    | cons token tokens =>
      have htail := hlabels.of_suffix (List.suffix_cons token tokens)
      rw [List.length_cons] at hlength
      by_cases hsymbol : token.kind = .symbol
      · cases he : (TokenReader.element stop token).run tokens with
        | error e => exact absurd h (parseFrom_symbol_ne_ok hsymbol he)
        | ok read =>
          obtain ⟨e, rest⟩ := read
          rw [parseFrom_symbol hsymbol he] at h
          obtain ⟨taken, kind, definitions, label, rfl, hkind, hblock, hvalid, rfl⟩ :=
            TokenReader.derives_of_run_element htail he
          rw [List.length_append] at hlength
          exact (ih (by omega) (htail.of_suffix (List.suffix_append _ _)) h).cons
            (.element hsymbol hkind hblock) (valid_leaf.mpr hvalid)
      by_cases hopening : ∃ kind, token.kind = (bracketKinds kind).1
      · obtain ⟨kind, hopening⟩ := hopening
        rw [parseFrom_opening hopening] at h
        obtain ⟨taken, closing, rest, raw, rfl, hclosing, hraw, hvalid, hcount, hrest⟩ :=
          ih (by omega) htail h
        simp only [List.nil_append, List.length_map] at hcount hrest
        rw [← tree_branch] at hrest
        have hlabels' : LabelsTrimmed rest :=
          htail.of_suffix ((List.suffix_cons _ _).trans (List.suffix_append _ _))
        simp only [List.length_append, List.length_cons] at hlength
        have := (ih (by omega) hlabels' hrest).cons (.connection hopening hraw hcount hclosing)
          (valid_branch.mpr hvalid)
        simpa using this
      by_cases hclosing : ∃ kind, token.kind = (bracketKinds kind).2
      · obtain ⟨kind, hclosing⟩ := hclosing
        obtain ⟨inner, outer, c, rfl, rfl, hc⟩ := of_parseFrom_closing_eq_ok hclosing h
        rw [parseFrom_closing hclosing hc] at h
        obtain ⟨hcount, rfl⟩ := Connection.ofChildren_eq_ok_iff.mp hc
        exact ⟨[], token, tokens, [], rfl, hclosing, .nil, valid_nil, by simpa using hcount,
          by simpa [Connection.toNode] using h⟩
      · exact absurd h (parseFrom_other_ne_ok hsymbol (not_exists.mp hopening)
          (not_exists.mp hclosing))

end Items

/-- Tokens make up a circuit exactly if they derive nodes that stand for it. -/
theorem parseTokens_eq_ok_iff {stop : Nat} {tokens : List Token} {c : Circuit}
    (hlabels : LabelsTrimmed tokens) :
    parseTokens stop tokens = .ok c ↔
      ∃ nodes, nodes ≠ [] ∧ DerivesNodes tokens nodes ∧ Grammar.Valid nodes ∧
        c = Grammar.circuit nodes := by
  have hcircuit {raw : List (Node Leaf)} (hraw : raw ≠ []) :
      Connection.ofChildren .series (raw.map tree) = .ok ⟨.series, rootChildren raw⟩ := by
    refine Connection.ofChildren_eq_ok_iff.mpr ⟨?_, rfl⟩
    rw [List.length_map]
    exact List.length_pos_iff.mpr hraw
  change (Items.parseFrom stop [] [] tokens >>= _) = _ ↔ _
  constructor
  · intro h
    cases hnodes : Items.parseFrom stop [] [] tokens with
    | error e =>
      rw [hnodes] at h
      cases h
    | ok result =>
      obtain ⟨raw, hraw, hvalid, rfl⟩ :=
        Items.accounts_of_parseFrom _ (Nat.le_refl _) hlabels hnodes
      rw [hnodes] at h
      refine ⟨raw, ?_, hraw, hvalid, ?_⟩
      · rintro rfl
        cases h
      · have hne : raw ≠ [] := by
          rintro rfl
          cases h
        simp only [List.nil_append, bind, Except.bind, hcircuit hne] at h
        cases h
        exact (circuit_eq raw).symm
  · rintro ⟨raw, hne, hraw, hvalid, rfl⟩
    have hnodes : Items.parseFrom stop [] [] (tokens ++ []) = .ok ([] ++ raw.map tree) :=
      (Items.parseFrom_nodes hraw hvalid [] [] [] (by simpa using hlabels) rfl).trans
        Items.parseFrom_nil
    rw [List.append_nil] at hnodes
    simp only [hnodes, List.nil_append, bind, Except.bind, hcircuit hne]
    exact congrArg Except.ok (circuit_eq raw).symm

theorem Parser.process_eq_ok_iff {p : Parser} {text : String} {c : Circuit} :
    (p.process text).1 = .ok c ↔
      (tokenize text).stray = none ∧
        parseTokens (byteLength text.toList) (tokenize text).tokens = .ok c := by
  cases hstray : (tokenize text).stray <;> simp [process, hstray]

/-- A parser reads a circuit from a text exactly if the text falls into tokens and all of these
    derive valid nodes, and it reads the circuit that these stand for. What the parser was used for
    before is of no account. -/
theorem Parser.process_iff_derives (p : Parser) (text : String) (c : Circuit) :
    (p.process text).1 = .ok c ↔
      (tokenize text).stray = none ∧
        ∃ nodes, nodes ≠ [] ∧ DerivesNodes (tokenize text).tokens nodes ∧ Grammar.Valid nodes ∧
          c = Grammar.circuit nodes := by
  rw [process_eq_ok_iff, parseTokens_eq_ok_iff (labelsTrimmed_tokenize text)]

theorem parse_eq_ok_iff {text : String} {c : Circuit} :
    parse text = .ok c ↔
      (tokenize text).stray = none ∧
        ∃ nodes, nodes ≠ [] ∧ DerivesNodes (tokenize text).tokens nodes ∧ Grammar.Valid nodes ∧
          c = Grammar.circuit nodes := by
  rw [parse, Parser.process_eq_ok_iff, parseTokens_eq_ok_iff (labelsTrimmed_tokenize text)]

end CircuitCode
