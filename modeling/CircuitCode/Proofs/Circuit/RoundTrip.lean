import CircuitCode.Proofs.Circuit.Printed
import CircuitCode.Proofs.Element.RoundTrip

/-!
# Circuits read back from their texts

The text of a parsed circuit with a number of decimals can be parsed again unless a number that is
written last for a fixed parameter is an infinity, which is then scanned as one word with the mark
(`Circuit.parse_code_iff`). The circuit that is read then has the same text exactly if every number
keeps its text when it is read back (`Circuit.code_roundTrips_iff`), which all numbers do with
sixteen decimals or more (`Circuit.code_eq_of_parse_code`).
-/

namespace CircuitCode

open Grammar

namespace Element

variable {decimals : Nat}

/-- No text of an element starts with a lower case letter. -/
theorem head?_text (e : Element) (decimals : Option Nat) (tail : List Char) :
    ((e.text decimals).toList ++ tail).head?.any Char.isLower = false := by
  obtain ⟨c, more, hsymbol, hc⟩ : ∃ c more, e.symbol.toList = c :: more ∧ c.isLower = false := by
    cases hkind : e.kind <;> rw [symbol, hkind] <;> exact ⟨_, _, rfl, rfl⟩
  cases decimals with
  | none =>
    rw [text, hsymbol]
    simpa using hc
  | some decimals =>
    rw [text, String.toList_append, hsymbol]
    simpa using hc

theorem WellFormed.scans {e : Element} (he : e.WellFormed) (rest : List Char) :
    Scans .outside (e.text (some decimals)).toList rest ((e.printed decimals).lexemes decimals)
      .outside := by
  rw [← text_printed]
  exact .leaf (he.writable decimals)

end Element

namespace Grammar

variable {decimals : Nat} {root : Node Element}

/-- The lexemes of the text of a tree of elements. -/
theorem tokenize_text (decimals : Nat) (hwell : ∀ e ∈ root.leaves, e.WellFormed) :
    (tokenize (root.text (some decimals))).stray = none ∧
      (tokenize (root.text (some decimals))).tokens.map Token.lexeme =
        root.lexemes fun e => (e.printed decimals).lexemes decimals := by
  refine Scans.tokenize_eq (Scans.node (fun e => e.head?_text (some decimals)) ?_ rfl)
  exact fun e he tail _ => (hwell e he).scans tail

/-- The root of a circuit read back from its text. -/
theorem branch_rootChildren_reread {children : List (Node Element)}
    (hroot : root = .branch .series children) (hwell : ∀ e ∈ root.leaves, e.WellFormed)
    (halternating : root.Alternating) :
    Node.branch .series
        (rootChildren [root.map fun e => (e.printed decimals).reread decimals]) =
      root.map (Element.reread decimals) := by
  have hseries : root.map (fun e => (e.printed decimals).reread decimals) =
      .branch .series (children.map (Node.map fun e => (e.printed decimals).reread decimals)) := by
    rw [hroot, Node.map_branch]
  rw [branch_rootChildren hseries ((Node.alternating_map _ root).mpr halternating)]
  exact (Node.fold_map root).trans (Node.fold_congr fun e he =>
    congrArg Node.leaf ((hwell e he).element_reread_printed decimals))

/-- A text without a mark after an infinity is parsed as the tree with every number read back. -/
theorem parse_text_eq (hwell : ∀ e ∈ root.leaves, e.WellFormed) (hfilled : root.Filled)
    (hapart : ∀ e ∈ root.leaves, ∀ d ∈ (e.printed decimals).definitions, d.FlagApart) :
    parse (root.text (some decimals)) =
      .ok (circuit [root.map fun e => (e.printed decimals).reread decimals]) := by
  refine parse_fold (fun e => (e.printed decimals).lexemes decimals)
    (fun e => e.head?_text (some decimals)) ?_ ?_ ?_ hfilled
  · exact fun e he tail _ => (hwell e he).scans tail
  · intro e he tokens htokens
    exact .of_leaf_lexemes ((hwell e he).definitions_ne_nil decimals)
      ((hwell e he).writable decimals) (hapart e he) htokens
  · exact fun e he => (hwell e he).valid_reread_printed decimals

theorem parse_text {children : List (Node Element)} (hroot : root = .branch .series children)
    (hwell : ∀ e ∈ root.leaves, e.WellFormed) (halternating : root.Alternating)
    (hfilled : root.Filled)
    (hapart : ∀ e ∈ root.leaves, ∀ d ∈ (e.printed decimals).definitions, d.FlagApart) :
    ∃ c, parse (root.text (some decimals)) = .ok c ∧
      c.code (some decimals) = (root.map (Element.reread decimals)).text (some decimals) := by
  refine ⟨_, parse_text_eq hwell hfilled hapart, ?_⟩
  rw [code_circuit, branch_rootChildren_reread hroot hwell halternating]

theorem not_readable_of_lexeme {token : Token}
    (h : token.lexeme = (.number, "-infF") ∨ token.lexeme = (.identifier, "infF")) :
    ¬ Readable token := by
  rintro ⟨hnumber, hidentifier⟩
  rcases h with h | h
  · obtain ⟨hkind, htext⟩ := Prod.mk.inj h
    obtain ⟨value, -, hvalue⟩ := hnumber hkind
    rw [htext] at hvalue
    cases hvalue
  · obtain ⟨hkind, htext⟩ := Prod.mk.inj h
    rw [htext] at hidentifier
    rcases hidentifier hkind with hflag | ⟨kind, hname⟩
    · exact absurd hflag (by decide)
    · revert hname
      cases kind <;> decide

/-- A text with a mark after an infinity is not parsed. -/
theorem flagApart_of_parse_text {c : Circuit} (hwell : ∀ e ∈ root.leaves, e.WellFormed)
    (h : parse (root.text (some decimals)) = .ok c) :
    ∀ e ∈ root.leaves, ∀ d ∈ (e.printed decimals).definitions, d.FlagApart := by
  intro e he d hd
  by_contra hapart
  obtain ⟨-, hlexemes⟩ := tokenize_text decimals hwell
  obtain ⟨-, nodes, -, hderives, hvalid, -⟩ := parse_eq_ok_iff.mp h
  have hbad (lexeme : TokenKind × String) (hmem : lexeme ∈ d.lexemes decimals)
      (hlexeme : lexeme = (.number, "-infF") ∨ lexeme = (.identifier, "infF")) : False := by
    have hleaf : lexeme ∈ (e.printed decimals).lexemes decimals := Leaf.lexemes_subset hd hmem
    have hroot : lexeme ∈ root.lexemes fun e => (e.printed decimals).lexemes decimals :=
      Node.lexemes_subset he hleaf
    rw [← hlexemes] at hroot
    obtain ⟨token, htoken, rfl⟩ := List.mem_map.mp hroot
    exact not_readable_of_lexeme hlexeme (hderives.readable hvalid token htoken)
  rcases Definition.mem_lexemes_of_not_flagApart hapart with hmem | hmem
  · exact hbad _ hmem (Or.inl rfl)
  · exact hbad _ hmem (Or.inr rfl)

/-- A tree of elements keeps its text when it is read back exactly if the numbers in it do. -/
theorem text_map_reread_eq_iff (hwell : ∀ e ∈ root.leaves, e.WellFormed) :
    (root.map (Element.reread decimals)).text (some decimals) = root.text (some decimals) ↔
      ∀ e ∈ root.leaves, ∀ d ∈ (e.printed decimals).definitions, ∀ x ∈ d.numbers,
        x.RoundTrips decimals := by
  have hfold : (root.map (Element.reread decimals)).text (some decimals) =
      root.fold (fun e => (e.reread decimals).text (some decimals)) ConnectionKind.enclose :=
    Node.fold_map root
  rw [hfold]
  constructor
  · intro h e he
    have hlists : (root.fold (fun e => (e.reread decimals).text (some decimals))
        ConnectionKind.enclose).toList ++ [] = (root.fold (fun e => e.text (some decimals))
          ConnectionKind.enclose).toList ++ [] := congrArg (fun text => text.toList ++ []) h
    obtain ⟨hsame, -⟩ := Node.fold_enclose_inj (fun e he rest rest' htext =>
      Element.text_eq_of_append_eq ((hwell e he).reread decimals) (hwell e he) htext) hlists
    exact (Element.text_reread_eq_iff (hwell e he)).mp (hsame e he)
  · intro h
    exact Node.fold_congr fun e he => (Element.text_reread_eq_iff (hwell e he)).mpr (h e he)

/-- A text of a tree of elements is parsed exactly if it has no mark after an infinity. -/
theorem parse_text_iff {children : List (Node Element)} (hroot : root = .branch .series children)
    (hwell : ∀ e ∈ root.leaves, e.WellFormed) (halternating : root.Alternating)
    (hfilled : root.Filled) :
    (∃ c, parse (root.text (some decimals)) = .ok c) ↔
      ∀ e ∈ root.leaves, ∀ d ∈ (e.printed decimals).definitions, d.FlagApart := by
  constructor
  · rintro ⟨c, hparse⟩
    exact flagApart_of_parse_text hwell hparse
  · intro hapart
    obtain ⟨c, hparse, -⟩ := parse_text hroot hwell halternating hfilled hapart
    exact ⟨c, hparse⟩

/-- The circuit that is parsed has the same text exactly if the numbers in the text keep theirs. -/
theorem parse_text_eq_iff {children : List (Node Element)}
    (hroot : root = .branch .series children) (hwell : ∀ e ∈ root.leaves, e.WellFormed)
    (halternating : root.Alternating) (hfilled : root.Filled) :
    (∃ c, parse (root.text (some decimals)) = .ok c ∧
        c.code (some decimals) = root.text (some decimals)) ↔
      ∀ e ∈ root.leaves, ∀ d ∈ (e.printed decimals).definitions,
        d.FlagApart ∧ ∀ x ∈ d.numbers, x.RoundTrips decimals := by
  constructor
  · rintro ⟨c, hparse, hcode⟩ e he d hd
    have hapart := flagApart_of_parse_text hwell hparse
    obtain ⟨c', hparse', hcode'⟩ := parse_text hroot hwell halternating hfilled hapart
    rw [hparse] at hparse'
    obtain rfl := Except.ok.inj hparse'
    rw [hcode'] at hcode
    exact ⟨hapart e he d hd, (text_map_reread_eq_iff hwell).mp hcode e he d hd⟩
  · intro h
    obtain ⟨c, hparse, hcode⟩ := parse_text hroot hwell halternating hfilled
      fun e he d hd => (h e he d hd).1
    refine ⟨c, hparse, hcode.trans ?_⟩
    exact (text_map_reread_eq_iff hwell).mpr fun e he d hd => (h e he d hd).2

end Grammar

namespace Circuit

variable {text : String} {c : Circuit}

/-- The tree that the text of a parsed circuit is written from: its elements without their
    identifiers. -/
theorem exists_root_of_parse (h : parse text = .ok c) :
    ∃ children : List (Node Element),
      (∀ decimals, c.code decimals = (Node.branch .series children).text decimals) ∧
      c.elements.map Element.anonymous = (Node.branch .series children).leaves ∧
      (∀ e ∈ (Node.branch .series children).leaves, e.WellFormed) ∧
      (Node.branch .series children).Alternating ∧ (Node.branch .series children).Filled := by
  have hwell := wellFormed_of_parse h
  obtain ⟨-, nodes, hne, hderives, -, rfl⟩ := parse_eq_ok_iff.mp h
  refine ⟨rootChildren nodes, code_circuit nodes, elements_circuit nodes, ?_,
    alternating_root nodes, hderives.filled_root hne⟩
  rw [← elements_circuit]
  exact List.forall_mem_map.mpr fun e he => Element.wellFormed_anonymous.mpr (hwell e he)

/-- The text of a parsed circuit is parsed again exactly if it has no mark after an infinity. -/
theorem parse_code_iff (h : parse text = .ok c) (decimals : Nat) :
    (∃ c', parse (c.code (some decimals)) = .ok c') ↔
      ∀ e ∈ c.elements, ∀ d ∈ (e.printed decimals).definitions, d.FlagApart := by
  obtain ⟨children, hcode, helements, hwell, halternating, hfilled⟩ := exists_root_of_parse h
  rw [hcode, parse_text_iff rfl hwell halternating hfilled, ← helements, List.forall_mem_map]
  rfl

/-- The text of a parsed circuit is parsed again, as a circuit with the same text, exactly if it
    has no mark after an infinity and every number in it keeps its text when it is read back. -/
theorem code_roundTrips_iff (h : parse text = .ok c) (decimals : Nat) :
    (∃ c', parse (c.code (some decimals)) = .ok c' ∧
        c'.code (some decimals) = c.code (some decimals)) ↔
      ∀ e ∈ c.elements, ∀ d ∈ (e.printed decimals).definitions,
        d.FlagApart ∧ ∀ x ∈ d.numbers, x.RoundTrips decimals := by
  obtain ⟨children, hcode, helements, hwell, halternating, hfilled⟩ := exists_root_of_parse h
  rw [hcode, parse_text_eq_iff rfl hwell halternating hfilled, ← helements, List.forall_mem_map]
  rfl

/-- With sixteen decimals or more a text that is parsed again is kept. -/
theorem code_eq_of_parse_code {c' : Circuit} {decimals : Nat} (h : parse text = .ok c)
    (hdecimals : 16 ≤ decimals) (h' : parse (c.code (some decimals)) = .ok c') :
    c'.code (some decimals) = c.code (some decimals) := by
  obtain ⟨children, hcode, -, hwell, halternating, hfilled⟩ := exists_root_of_parse h
  rw [hcode] at h' ⊢
  have hroundTrips : ∀ e ∈ (Node.branch .series children).leaves,
      ∀ d ∈ (e.printed decimals).definitions,
        d.FlagApart ∧ ∀ x ∈ d.numbers, x.RoundTrips decimals := by
    intro e he d hd
    refine ⟨flagApart_of_parse_text hwell h' e he d hd, ?_⟩
    intro x hx
    have hnan : x.isNaN = false := ((hwell e he).writable decimals).number d hd x hx
    exact Number.roundTrips_of_sixteen_le hnan hdecimals
  obtain ⟨c'', hparse, hsame⟩ := (parse_text_eq_iff rfl hwell halternating hfilled).mpr hroundTrips
  rw [h'] at hparse
  obtain rfl := Except.ok.inj hparse
  exact hsame

/-- A resistor with the value infinity that is fixed. -/
def openResistor : Circuit := (parse "R\x7bR=inf F\x7d").toOption.getD ⟨⟨.series, []⟩⟩

theorem parse_openResistor : parse "R\x7bR=inf F\x7d" = .ok openResistor := by
  refine parse_eq_ok_getD ?_ _
  decide +kernel

/-- The text of the open resistor, which ends in the word `infF`, is not parsed. -/
theorem code_roundTrips_iff_openResistor :
    ¬ ∃ c', parse (openResistor.code (some 6)) = .ok c' ∧
      c'.code (some 6) = openResistor.code (some 6) := by
  rw [code_roundTrips_iff parse_openResistor]
  intro h
  have hclash : (openResistor.elements.any fun e => (e.printed 6).definitions.any fun d =>
      d.fixed && d.last.isInfinite) = true := by
    decide +kernel
  obtain ⟨e, he, hany⟩ := List.any_eq_true.mp hclash
  obtain ⟨d, hd, hbad⟩ := List.any_eq_true.mp hany
  exact (h e he d hd).1 (Bool.and_eq_true_iff.mp hbad)

end Circuit

end CircuitCode
