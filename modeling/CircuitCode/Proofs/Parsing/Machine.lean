import CircuitCode.Parsing.Circuit
import CircuitCode.Proofs.Connection.Splicing
import CircuitCode.Proofs.Parsing.Element

/-!
# The machine that joins nodes

Items and the joining of nodes together are one machine on tokens, `Items.parseFrom`. Its state is
the list of open connections and the nodes in the innermost one. There is one lemma for each kind
of token that the machine may come to.
-/

namespace CircuitCode

open Grammar

namespace Connection

variable {α : Type}

/-- Nodes are joined if there are enough of them. -/
theorem ofChildren_eq_ok_iff {kind : ConnectionKind} {children : List (Node α)}
    {c : Connection α} :
    ofChildren kind children = .ok c ↔
      leastNodes kind ≤ children.length ∧ c = ⟨kind, children.flatMap (splice kind)⟩ := by
  unfold ofChildren validate
  cases hlength : children.length with
  | zero => cases kind <;> simp [leastNodes, bind, Except.bind]
  | succ n =>
    cases kind with
    | series => simp [leastNodes, bind, Except.bind, pure, Except.pure, eq_comm]
    | parallel =>
      by_cases hn : n = 0
      · simp [leastNodes, bind, Except.bind, hn]
      · have h : ¬ n + 1 < 2 := by omega
        have h' : 2 ≤ n + 1 := by omega
        simp [leastNodes, bind, Except.bind, pure, Except.pure, h, h', eq_comm]

/-- Too few nodes are not joined. -/
theorem exists_validate_eq_error {kind : ConnectionKind} {count : Nat}
    (h : count < leastNodes kind) : ∃ cause, validate kind count = .error cause := by
  unfold validate
  cases kind with
  | series =>
    obtain rfl : count = 0 := by simpa [leastNodes] using h
    exact ⟨_, rfl⟩
  | parallel =>
    by_cases hzero : count = 0
    · rw [if_pos hzero]
      exact ⟨_, rfl⟩
    · have htwo : count < 2 := h
      rw [if_neg hzero, if_pos ⟨rfl, htwo⟩]
      exact ⟨_, rfl⟩

theorem ofChildren_eq_error {kind : ConnectionKind} {children : List (Node α)}
    {cause : ConnectionError} (h : validate kind children.length = .error cause) :
    ofChildren kind children = .error cause := by
  unfold ofChildren
  rw [h]
  rfl

end Connection

namespace Grammar

/-- The tree that a derived node stands for. -/
def tree (node : Node Leaf) : Node Element := (node.map Leaf.element).spliced

/-- All elements of some nodes are valid. -/
def Valid (nodes : List (Node Leaf)) : Prop := ∀ node ∈ nodes, ∀ x ∈ node.leaves, x.Valid

theorem tree_leaf (x : Leaf) : tree (.leaf x) = .leaf x.element := rfl

theorem tree_branch (kind : ConnectionKind) (children : List (Node Leaf)) :
    tree (.branch kind children) =
      .branch kind ((children.map tree).flatMap (Connection.splice kind)) := by
  rw [tree, Node.map_branch, Node.spliced_branch, List.map_map]
  rfl

/-- The children of the root of a circuit, before they are numbered. -/
def rootChildren (nodes : List (Node Leaf)) : List (Node Element) :=
  (nodes.map tree).flatMap (Connection.splice .series)

theorem circuit_eq (nodes : List (Node Leaf)) :
    circuit nodes = .ofConnection ⟨.series, rootChildren nodes⟩ := by
  simp only [circuit, rootChildren, Node.splicedInto_eq_splice, List.flatMap_map, tree]

theorem valid_nil : Valid [] := by
  simp [Valid]

theorem valid_cons {node : Node Leaf} {nodes : List (Node Leaf)} :
    Valid (node :: nodes) ↔ (∀ x ∈ node.leaves, x.Valid) ∧ Valid nodes := by
  simp [Valid]

theorem valid_leaf {x : Leaf} : (∀ y ∈ (Node.leaf x).leaves, y.Valid) ↔ x.Valid := by
  simp [Node.leaves, Node.fold]

theorem valid_branch {kind : ConnectionKind} {children : List (Node Leaf)} :
    (∀ x ∈ (Node.branch kind children).leaves, x.Valid) ↔ Valid children := by
  simp only [Valid, Node.leaves, Node.fold, Node.foldAll_eq_map, List.mem_flatten, List.mem_map]
  constructor
  · intro h node hnode x hx
    exact h x ⟨_, ⟨node, hnode, rfl⟩, hx⟩
  · rintro h x ⟨_, ⟨node, hnode, rfl⟩, hx⟩
    exact h node hnode x hx

theorem bracketKinds_fst_ne_openBrace (kind : ConnectionKind) :
    (bracketKinds kind).1 ≠ .openBrace := by
  cases kind <;> decide

theorem bracketKinds_snd_ne_openBrace (kind : ConnectionKind) :
    (bracketKinds kind).2 ≠ .openBrace := by
  cases kind <;> decide

/-- A node starts with a symbol or an opening bracket. -/
theorem DerivesNode.exists_cons {tokens : List Token} {node : Node Leaf}
    (h : DerivesNode tokens node) :
    ∃ first rest, tokens = first :: rest ∧ TokenReader.isOpenBrace first = false := by
  cases h with
  | element hsymbol => exact ⟨_, _, rfl, by simp [TokenReader.isOpenBrace, hsymbol]⟩
  | @connection _ _ _ kind _ hopening =>
    refine ⟨_, _, rfl, ?_⟩
    simp [TokenReader.isOpenBrace, hopening, bracketKinds_fst_ne_openBrace]

/-- No block can follow nodes if none can follow what is after them. -/
theorem DerivesNodes.head?_append {tokens rest : List Token} {nodes : List (Node Leaf)}
    (h : DerivesNodes tokens nodes) (hrest : rest.head?.any TokenReader.isOpenBrace = false) :
    (tokens ++ rest).head?.any TokenReader.isOpenBrace = false := by
  cases h with
  | nil => exact hrest
  | cons hnode _ =>
    obtain ⟨first, after, rfl, hfirst⟩ := hnode.exists_cons
    simpa using hfirst

end Grammar

namespace TokenReader

variable {stop : Nat} {tokens rest : List Token}

theorem isOpenBrace_eq_true_iff {token : Token} :
    isOpenBrace token = true ↔ token.kind = .openBrace := by
  simp [isOpenBrace]

/-- What is read of an element is a symbol of some kind and a block that is valid for it. -/
theorem derives_of_run_element {symbol : Token} {e : Element} (hlabels : LabelsTrimmed tokens)
    (h : (element stop symbol).run tokens = .ok (e, rest)) :
    ∃ taken kind definitions label, tokens = taken ++ rest ∧
      ElementKind.ofSymbol? symbol.text = some kind ∧ Block taken definitions label ∧
      (⟨kind, definitions, label⟩ : Leaf).Valid ∧
      e = (⟨kind, definitions, label⟩ : Leaf).element := by
  unfold element at h
  cases hkind : ElementKind.ofSymbol? symbol.text with
  | none =>
    simp only [hkind] at h
    exact absurd h run_throw_ne_ok
  | some kind =>
    simp only [hkind] at h
    obtain ⟨brace, middle, hbrace, hrun⟩ := run_bind_eq_ok_iff.mp h
    clear h
    cases tokens with
    | nil =>
      obtain ⟨rfl, rfl⟩ := run_takeIf_nil_eq_ok_iff.mp hbrace
      obtain ⟨rfl, rfl⟩ := run_pure_eq_ok_iff.mp hrun
      exact ⟨[], kind, [], none, rfl, rfl, .absent, Leaf.valid_bare kind, rfl⟩
    | cons first tokens =>
      obtain ⟨rfl, rfl⟩ := run_takeIf_cons_eq_ok_iff.mp hbrace
      by_cases hfirst : isOpenBrace first = true
      · simp only [hfirst, ↓reduceIte] at hrun
        obtain ⟨taken, definitions, label, rfl, hbody, hvalid, rfl⟩ :=
          (run_block_eq_ok_iff (x := ⟨kind, [], none⟩) (Leaf.valid_bare kind) rfl
            (hlabels.of_suffix (List.suffix_cons _ _)) (by simp) (by simp)).mp hrun
        exact ⟨first :: taken, kind, definitions, label, rfl, rfl,
          .present (isOpenBrace_eq_true_iff.mp hfirst) hbody, hvalid, rfl⟩
      · simp only [hfirst, Bool.false_eq_true, ↓reduceIte] at hrun
        obtain ⟨rfl, rfl⟩ := run_pure_eq_ok_iff.mp hrun
        exact ⟨[], kind, [], none, rfl, rfl, .absent, Leaf.valid_bare kind, rfl⟩

/-- After an opening brace the block is read. -/
theorem run_element_of_openBrace {symbol brace : Token} {kind : ElementKind}
    (hkind : ElementKind.ofSymbol? symbol.text = some kind) (hbrace : brace.kind = .openBrace) :
    (element stop symbol).run (brace :: tokens) =
      (block stop (.ofKind kind) [] kind.parameters.length).run tokens := by
  have htake : (takeIf isOpenBrace).run (brace :: tokens) = .ok (true, tokens) := by
    simp [takeIf, StateT.run, isOpenBrace, hbrace]
  unfold element
  simp only [hkind]
  rw [run_bind_of_ok htake]
  rfl

/-- A valid element is read with its block, if what follows is not a block. -/
theorem run_element_of_derives {symbol : Token} {taken : List Token} {kind : ElementKind}
    {definitions : List Definition} {label : Option String}
    (hkind : ElementKind.ofSymbol? symbol.text = some kind)
    (hblock : Block taken definitions label) (hvalid : (⟨kind, definitions, label⟩ : Leaf).Valid)
    (hlabels : LabelsTrimmed (taken ++ rest)) (hrest : rest.head?.any isOpenBrace = false) :
    (element stop symbol).run (taken ++ rest) =
      .ok ((⟨kind, definitions, label⟩ : Leaf).element, rest) := by
  unfold element
  simp only [hkind]
  cases hblock with
  | absent =>
    refine run_bind_eq_ok_iff.mpr ⟨false, rest, run_takeIf_of_fails hrest, ?_⟩
    exact run_pure_eq_ok_iff.mpr ⟨rfl, rfl⟩
  | @present brace body _ _ hbrace hbody =>
    refine run_bind_eq_ok_iff.mpr ⟨true, body ++ rest, ?_, ?_⟩
    · simp [takeIf, StateT.run, isOpenBrace, hbrace]
    · exact (run_block_eq_ok_iff (x := ⟨kind, [], none⟩) (Leaf.valid_bare kind) rfl
        (hlabels.of_suffix (List.suffix_cons _ _)) (by simp) (by simp)).mpr
          ⟨body, definitions, label, rfl, hbody, hvalid, rfl⟩

end TokenReader

namespace Items

variable {stop : Nat} {outer : List OpenConnection} {nodes : List (Node Element)}
  {tokens : List Token}

/-- The nodes that tokens make up, given the connections that are open and the nodes so far in the
    innermost one. -/
def parseFrom (stop : Nat) (outer : List OpenConnection) (nodes : List (Node Element))
    (tokens : List Token) : Except ParseError (List (Node Element)) :=
  join stop (ofTokens stop tokens).failure outer nodes (ofTokens stop tokens).items

theorem parseFrom_nil : parseFrom stop [] nodes [] = .ok nodes := by
  simp [parseFrom, ofTokens, join]

theorem parseFrom_open_nil_ne_ok {inner : OpenConnection} {result : List (Node Element)} :
    parseFrom stop (inner :: outer) nodes [] ≠ .ok result := by
  simp [parseFrom, ofTokens, join]

theorem ofTokens_symbol {symbol : Token} {e : Element} {rest : List Token}
    (hsymbol : symbol.kind = .symbol)
    (he : (TokenReader.element stop symbol).run tokens = .ok (e, rest)) :
    ofTokens stop (symbol :: tokens) = cons (.element e) (ofTokens stop rest) := by
  rw [ofTokens]
  simp only [hsymbol]
  split
  · next heq =>
      rw [he] at heq
      cases heq
      rfl
  · next heq =>
      rw [he] at heq
      cases heq

theorem ofTokens_opening {opening : Token} {kind : ConnectionKind}
    (hopening : opening.kind = (bracketKinds kind).1) :
    ofTokens stop (opening :: tokens) =
      cons (.opening kind opening.position) (ofTokens stop tokens) := by
  rw [ofTokens]
  cases kind <;> simp only [bracketKinds] at hopening <;> simp only [hopening]

theorem ofTokens_closing {closing : Token} {kind : ConnectionKind}
    (hclosing : closing.kind = (bracketKinds kind).2) :
    ofTokens stop (closing :: tokens) =
      cons (.closing kind closing.position) (ofTokens stop tokens) := by
  rw [ofTokens]
  cases kind <;> simp only [bracketKinds] at hclosing <;> simp only [hclosing]

theorem parseFrom_symbol {symbol : Token} {e : Element} {rest : List Token}
    (hsymbol : symbol.kind = .symbol)
    (he : (TokenReader.element stop symbol).run tokens = .ok (e, rest)) :
    parseFrom stop outer nodes (symbol :: tokens) =
      parseFrom stop outer (nodes ++ [.leaf e]) rest := by
  unfold parseFrom
  rw [ofTokens_symbol hsymbol he]
  rfl

theorem parseFrom_symbol_ne_ok {symbol : Token} {e : ParseError} {result : List (Node Element)}
    (hsymbol : symbol.kind = .symbol)
    (he : (TokenReader.element stop symbol).run tokens = .error e) :
    parseFrom stop outer nodes (symbol :: tokens) ≠ .ok result := by
  unfold parseFrom
  rw [ofTokens]
  simp only [hsymbol]
  split
  · next heq =>
      rw [he] at heq
      cases heq
  · simp [fail, join]

theorem parseFrom_opening {opening : Token} {kind : ConnectionKind}
    (hopening : opening.kind = (bracketKinds kind).1) :
    parseFrom stop outer nodes (opening :: tokens) =
      parseFrom stop (⟨kind, opening.position, nodes⟩ :: outer) [] tokens := by
  unfold parseFrom
  rw [ofTokens_opening hopening]
  rfl

theorem parseFrom_closing {closing : Token} {inner : OpenConnection} {c : Connection Element}
    (hclosing : closing.kind = (bracketKinds inner.kind).2)
    (hjoin : Connection.ofChildren inner.kind nodes = .ok c) :
    parseFrom stop (inner :: outer) nodes (closing :: tokens) =
      parseFrom stop outer (inner.before ++ [c.toNode]) tokens := by
  unfold parseFrom
  rw [ofTokens_closing hclosing]
  simp [cons, join, hjoin]

/-- A closing bracket is accepted only inside a connection of its kind that is then complete. -/
theorem of_parseFrom_closing_eq_ok {closing : Token} {kind : ConnectionKind}
    {result : List (Node Element)} (hclosing : closing.kind = (bracketKinds kind).2)
    (h : parseFrom stop outer nodes (closing :: tokens) = .ok result) :
    ∃ inner outer' c, outer = inner :: outer' ∧ inner.kind = kind ∧
      Connection.ofChildren kind nodes = .ok c := by
  unfold parseFrom at h
  rw [ofTokens_closing hclosing] at h
  cases outer with
  | nil => simp [cons, join] at h
  | cons inner outer =>
    simp only [cons] at h
    rw [join] at h
    split at h
    · next hkind =>
        split at h
        · next c hc => exact ⟨inner, outer, c, rfl, hkind, hc⟩
        · cases h
    · cases h

theorem parseFrom_other_ne_ok {token : Token} {result : List (Node Element)}
    (hsymbol : token.kind ≠ .symbol) (hopening : ∀ kind, token.kind ≠ (bracketKinds kind).1)
    (hclosing : ∀ kind, token.kind ≠ (bracketKinds kind).2) :
    parseFrom stop outer nodes (token :: tokens) ≠ .ok result := by
  have hopenBracket := hopening .series
  have hopenParen := hopening .parallel
  have hcloseBracket := hclosing .series
  have hcloseParen := hclosing .parallel
  simp only [bracketKinds] at hopenBracket hopenParen hcloseBracket hcloseParen
  unfold parseFrom
  rw [ofTokens]
  split <;> simp_all [fail, join]

end Items

end CircuitCode
