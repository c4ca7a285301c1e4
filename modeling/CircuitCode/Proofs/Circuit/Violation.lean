import CircuitCode.Proofs.Parsing.Assignment
import CircuitCode.Proofs.Parsing.Exactness

/-!
# Values that are not between their limits

Wherever a text comes to a definition, its value is compared with the limits once the definition
has been read: first with the lower limit and then with the upper one, whether they are given or
those of the kind, and whether they cross or not. The first comparison that fails is the parser's
answer for the whole text (`parse_of_definition`).
-/

namespace CircuitCode

open Grammar

namespace Grammar

/-- What a text may start with before one of its nodes: nodes, and brackets that are still open. -/
inductive Opens : List Token → Prop where
  | nil : Opens []
  | node {before tokens : List Token} {node : Node Leaf} (h : Opens before)
      (hnode : DerivesNode tokens node) (hvalid : ∀ x ∈ node.leaves, x.Valid) :
      Opens (before ++ tokens)
  | bracket {before : List Token} {opening : Token} (kind : ConnectionKind) (h : Opens before)
      (hopening : opening.kind = (bracketKinds kind).1) : Opens (before ++ [opening])

/-- What a text may start with before a definition in the block of an element. The element has the
    definitions that come before this one in the block. -/
inductive Precedes : List Token → Leaf → Prop where
  | first {before : List Token} {symbol brace : Token} {kind : ElementKind} (h : Opens before)
      (hsymbol : symbol.kind = .symbol) (hkind : ElementKind.ofSymbol? symbol.text = some kind)
      (hbrace : brace.kind = .openBrace) : Precedes (before ++ [symbol, brace]) ⟨kind, [], none⟩
  | next {before tokens : List Token} {comma : Token} {x : Leaf} {d : Definition}
      (h : Precedes before x) (hdefines : Defines tokens d) (hvalid : (x.define d).Valid)
      (hcomma : comma.kind = .comma) : Precedes (before ++ (tokens ++ [comma])) (x.define d)

theorem Precedes.valid {before : List Token} {x : Leaf} (h : Precedes before x) : x.Valid := by
  cases h with
  | first => exact Leaf.valid_bare _
  | next _ _ hvalid => exact hvalid

/-- The parameter that a definition is for has what the definition gives. -/
theorem Leaf.parameter_element_define {x : Leaf} {d : Definition} {p : ParameterDefinition}
    (hp : x.kind.parameter? d.name = some p)
    (hfresh : d.name ∉ x.definitions.map Definition.name) :
    (x.define d).element.parameter d.name =
      .ok ⟨d.name, d.value, d.lower.getD p.lower, d.upper.getD p.upper, d.fixed⟩ := by
  obtain ⟨hmem, hname⟩ := ElementKind.parameter?_eq_some_iff.mp hp
  have hnodup : ((x.define d).element.parameters.map Parameter.name).Nodup := by
    rw [names_element]
    exact x.kind.nodup_names
  have hfind := (find?_eq_some_iff_of_nodup hnodup).mpr
    ⟨List.mem_map_of_mem hmem, (name_parameter (x.define d) p).trans hname⟩
  unfold Element.parameter
  rw [hfind, parameter_define_of_eq hname hfresh, hname]

end Grammar

namespace Items

/-- The machine comes to what follows the nodes and the open brackets at the start of a text. -/
theorem exists_parseFrom_of_opens (stop : Nat) {before tokens : List Token} (h : Opens before)
    (hlabels : LabelsTrimmed (before ++ tokens))
    (htokens : tokens.head?.any TokenReader.isOpenBrace = false) :
    ∃ outer nodes, parseFrom stop [] [] (before ++ tokens) = parseFrom stop outer nodes tokens := by
  induction h generalizing tokens with
  | nil => exact ⟨[], [], rfl⟩
  | @node before taken node _ hnode hvalid ih =>
    rw [List.append_assoc] at hlabels ⊢
    obtain ⟨first, more, htaken, hfirst⟩ := hnode.exists_cons
    obtain ⟨outer, nodes, hrun⟩ := ih hlabels (by simpa [htaken] using hfirst)
    refine ⟨outer, nodes ++ [tree node], ?_⟩
    rw [hrun, parseFrom_node hnode hvalid outer nodes tokens
      (hlabels.of_suffix (List.suffix_append _ _)) htokens]
  | @bracket before opening kind _ hopening ih =>
    rw [List.append_assoc, List.singleton_append] at hlabels ⊢
    have hnotBrace : (opening :: tokens).head?.any TokenReader.isOpenBrace = false := by
      simp [TokenReader.isOpenBrace, hopening, bracketKinds_fst_ne_openBrace]
    obtain ⟨outer, nodes, hrun⟩ := ih hlabels hnotBrace
    exact ⟨⟨kind, opening.position, nodes⟩ :: outer, [],
      hrun.trans (parseFrom_opening hopening)⟩

end Items

/-- If a block fails at a definition, then so does the text in which it stands. The induction is on
    the definitions before this one. -/
theorem Grammar.Precedes.parseTokens_eq_error {before tokens : List Token} {x : Leaf}
    (h : Precedes before x) {stop : Nat} {cause : ParseError}
    (hlabels : LabelsTrimmed (before ++ tokens))
    (hblock : ∀ defined remaining,
      (∀ name, name ∈ defined ↔ name ∈ x.definitions.map Definition.name) →
      x.definitions.length + remaining = x.kind.parameters.length →
      (TokenReader.block stop x.element defined remaining).run tokens = .error cause) :
    parseTokens stop (before ++ tokens) = .error cause := by
  induction h generalizing tokens with
  | @first before symbol brace kind hopens hsymbol hkind hbrace =>
    rw [List.append_assoc, List.cons_append, List.singleton_append] at hlabels ⊢
    have hnotBrace : (symbol :: brace :: tokens).head?.any TokenReader.isOpenBrace = false := by
      simp [TokenReader.isOpenBrace, hsymbol]
    obtain ⟨outer, nodes, hrun⟩ :=
      Items.exists_parseFrom_of_opens stop hopens hlabels hnotBrace
    have hfail : Items.parseFrom stop outer nodes (symbol :: brace :: tokens) = .error cause :=
      Items.parseFrom_of_block_error hsymbol hkind hbrace
        (hblock [] kind.parameters.length (by simp) (Nat.zero_add _))
    change (Items.parseFrom stop [] [] _ >>= _) = _
    rw [hrun, hfail]
    rfl
  | @next before taken comma x d hbefore hdefines hvalid hcomma ih =>
    rw [List.append_assoc, List.append_assoc, List.singleton_append] at hlabels ⊢
    refine ih hlabels fun defined remaining hdefined hremaining => ?_
    obtain ⟨remaining, rfl⟩ : ∃ fewer, remaining = fewer + 1 := by
      have hlength := hvalid.length_le
      simp only [Leaf.define, List.length_append, List.length_cons, List.length_nil] at hlength
      exact Nat.exists_eq_succ_of_ne_zero (by omega)
    obtain ⟨name, taken, rfl⟩ : ∃ name more, taken = name :: more := by
      cases hdefines with
      | mk => exact ⟨_, _, rfl⟩
    have hends : TokenReader.DefinitionEnds (comma :: tokens) := by
      simp [TokenReader.DefinitionEnds, TokenReader.isSlash, TokenReader.isFixedFlag, hcomma]
    rw [List.cons_append, TokenReader.run_block_of_comma hdefines.name_kind
      (TokenReader.run_definition_of_valid hdefines hends.endsBefore hbefore.valid hdefined hvalid)
      hcomma]
    refine hblock _ _ ?_ ?_
    · intro other
      simp [Leaf.define, hdefined, hdefines.name_eq, or_comm]
    · simp only [Leaf.define, List.length_append, List.length_cons, List.length_nil]
      omega

/-- An element does not have all its parameters defined if another definition is for one of
    them. -/
theorem Grammar.Leaf.length_definitions_lt {x : Leaf} {d : Definition} {p : ParameterDefinition}
    (hx : x.Valid) (hp : x.kind.parameter? d.name = some p)
    (hfresh : d.name ∉ x.definitions.map Definition.name) :
    x.definitions.length < x.kind.parameters.length := by
  obtain ⟨hmem, hname⟩ := ElementKind.parameter?_eq_some_iff.mp hp
  have hnodup : (d.name :: x.definitions.map Definition.name).Nodup :=
    List.nodup_cons.mpr ⟨hfresh, hx.distinct⟩
  have hsubset : d.name :: x.definitions.map Definition.name ⊆
      x.kind.parameters.map ParameterDefinition.name := by
    refine List.cons_subset.mpr ⟨hname ▸ List.mem_map_of_mem hmem, ?_⟩
    intro other hother
    obtain ⟨d', hd', rfl⟩ := List.mem_map.mp hother
    exact hx.names d' hd'
  have hlength := (List.Nodup.subperm hnodup hsubset).length_le
  rwa [List.length_cons, List.length_map, List.length_map] at hlength

/-- A text comes to a definition of the parameter `p` of the element `x`. Nothing is wrong before
    it, and nothing with it, its numbers perhaps apart. -/
structure Grammar.ComesTo (text : String) (x : Leaf) (p : ParameterDefinition) (d : Definition)
    (before : List Token) (name : Token) (taken rest : List Token) : Prop where
  stray : (tokenize text).stray = none
  tokens : (tokenize text).tokens = before ++ name :: (taken ++ rest)
  precedes : Precedes before x
  defines : Defines (name :: taken) d
  ends : d.EndsBefore rest
  parameter : x.kind.parameter? d.name = some p
  fresh : d.name ∉ x.definitions.map Definition.name

section Violation

variable {text : String} {x : Leaf} {p : ParameterDefinition} {d : Definition}
  {before taken rest : List Token} {name : Token}

namespace Grammar.ComesTo

variable (h : ComesTo text x p d before name taken rest)

include h

theorem isNaN : d.value.isNaN = false ∧ (d.lower.getD p.lower).isNaN = false ∧
    (d.upper.getD p.upper).isNaN = false :=
  h.defines.isNaN (ElementKind.parameter?_eq_some_iff.mp h.parameter).1

/-- A definition is added to those before it unless its value violates a limit. -/
theorem valid_define_iff : (x.define d).Valid ↔
    ¬ d.value < d.lower.getD p.lower ∧ ¬ d.upper.getD p.upper < d.value := by
  obtain ⟨hvalue, hlower, hupper⟩ := h.isNaN
  rw [Leaf.valid_define_iff h.precedes.valid h.parameter h.fresh,
    Number.not_lt_iff hvalue hlower, Number.not_lt_iff hupper hvalue]

/-- A definition is accepted, or refused with the first limit that its value violates. -/
theorem run_definition (stop : Nat) {defined : List String}
    (hdefined : ∀ other, other ∈ defined ↔ other ∈ x.definitions.map Definition.name) :
    (TokenReader.definition stop x.element defined name).run (taken ++ rest) =
      if d.value < d.lower.getD p.lower then
        .error (.lowerLimit name.position d.name d.value (d.lower.getD p.lower))
      else if d.upper.getD p.upper < d.value then
        .error (.upperLimit name.position d.name d.value (d.upper.getD p.upper))
      else .ok ((x.define d).element, rest) := by
  by_cases hvalid : (x.define d).Valid
  · obtain ⟨hlower, hupper⟩ := h.valid_define_iff.mp hvalid
    rw [if_neg hlower, if_neg hupper]
    exact TokenReader.run_definition_of_valid h.defines h.ends h.precedes.valid hdefined hvalid
  · rw [TokenReader.run_definition_of_not_valid h.defines h.ends h.precedes.valid hdefined
      h.parameter h.fresh hvalid]
    unfold ParseError.ofLimits
    split
    · rfl
    · next hlower =>
      have hupper : d.upper.getD p.upper < d.value := by
        by_contra hupper
        exact hvalid (h.valid_define_iff.mpr ⟨hlower, hupper⟩)
      rw [if_pos hupper]

/-- Whatever the element says against the numbers becomes a report about a limit that the value
    violates. -/
theorem ofElementError_of_setParameter {cause : ElementError}
    (hset : x.element.setParameter p.name d.value (d.lower.getD p.lower) (d.upper.getD p.upper)
      d.fixed = .error cause) :
    d.value < d.lower.getD p.lower ∧
      ParseError.ofElementError name.position d.value cause =
        .lowerLimit name.position d.name d.value (d.lower.getD p.lower) ∨
    ¬ d.value < d.lower.getD p.lower ∧ d.upper.getD p.upper < d.value ∧
      ParseError.ofElementError name.position d.value cause =
        .upperLimit name.position d.name d.value (d.upper.getD p.upper) := by
  obtain ⟨hmem, hname⟩ := ElementKind.parameter?_eq_some_iff.mp h.parameter
  obtain ⟨hvalue, hlower, hupper⟩ := h.isNaN
  have hp : p.name ∈ x.element.parameters.map Parameter.name := by
    rw [Leaf.names_element]
    exact List.mem_map_of_mem hmem
  rw [ParseError.ofElementError_of_checkRange hvalue hlower hupper
    (Element.checkRange_of_setParameter hp hset), hname]
  unfold ParseError.ofLimits
  by_cases hbelow : d.value < d.lower.getD p.lower
  · exact .inl ⟨hbelow, if_pos hbelow⟩
  · refine .inr ⟨hbelow, ?_, if_neg hbelow⟩
    by_contra habove
    have hok := (Leaf.setParameter_element_eq_ok_iff h.precedes.valid h.parameter h.fresh).mpr
      ⟨h.valid_define_iff.mpr ⟨hbelow, habove⟩, rfl⟩
    rw [hset] at hok
    cases hok

/-- Limits that cross leave the value outside at least one of them. -/
theorem lt_or_lt_of_cross (hcross : d.upper.getD p.upper < d.lower.getD p.lower) :
    d.value < d.lower.getD p.lower ∨ d.upper.getD p.upper < d.value := by
  obtain ⟨hvalue, hlower, hupper⟩ := h.isNaN
  simp only [Number.lt_iff, hvalue, hlower, hupper, true_and] at hcross ⊢
  omega

/-- A definition that is refused is the end of the text. -/
theorem parse_eq_error {cause : ParseError}
    (hdefinition : ∀ stop defined,
      (∀ other, other ∈ defined ↔ other ∈ x.definitions.map Definition.name) →
      (TokenReader.definition stop x.element defined name).run (taken ++ rest) = .error cause) :
    parse text = .error cause := by
  have hlabels := labelsTrimmed_tokenize text
  rw [h.tokens] at hlabels
  unfold parse Parser.process
  simp only [h.stray, h.tokens]
  refine h.precedes.parseTokens_eq_error hlabels fun defined remaining hdefined hremaining => ?_
  have hlength := Leaf.length_definitions_lt h.precedes.valid h.parameter h.fresh
  obtain ⟨fewer, rfl⟩ := Nat.exists_eq_succ_of_ne_zero (n := remaining) (by omega)
  exact TokenReader.run_block_of_definition_error h.defines.name_kind
    (hdefinition _ defined hdefined)

end Grammar.ComesTo

/-- Wherever a text comes to a definition, in any order of its numbers: if the value is below the
    lower limit, the parser reports this limit and the value for the whole text; otherwise, if the
    value is above the upper limit, it reports that one and the value; otherwise the definition is
    accepted, and the element has the value and both limits. The reader of the definition does
    nothing else, and whatever the element says against the numbers becomes one of the two reports,
    about a limit that is violated. If the limits cross, one of them is. -/
theorem parse_of_definition (h : ComesTo text x p d before name taken rest) :
    (∀ stop defined, (∀ other, other ∈ defined ↔ other ∈ x.definitions.map Definition.name) →
      (TokenReader.definition stop x.element defined name).run (taken ++ rest) =
        if d.value < d.lower.getD p.lower then
          .error (.lowerLimit name.position d.name d.value (d.lower.getD p.lower))
        else if d.upper.getD p.upper < d.value then
          .error (.upperLimit name.position d.name d.value (d.upper.getD p.upper))
        else .ok ((x.define d).element, rest)) ∧
    (d.value < d.lower.getD p.lower →
      parse text = .error (.lowerLimit name.position d.name d.value (d.lower.getD p.lower))) ∧
    (¬ d.value < d.lower.getD p.lower → d.upper.getD p.upper < d.value →
      parse text = .error (.upperLimit name.position d.name d.value (d.upper.getD p.upper))) ∧
    (x.define d).element.parameter d.name =
      .ok ⟨d.name, d.value, d.lower.getD p.lower, d.upper.getD p.upper, d.fixed⟩ ∧
    (∀ cause, x.element.setParameter p.name d.value (d.lower.getD p.lower) (d.upper.getD p.upper)
        d.fixed = .error cause →
      d.value < d.lower.getD p.lower ∧
        ParseError.ofElementError name.position d.value cause =
          .lowerLimit name.position d.name d.value (d.lower.getD p.lower) ∨
      ¬ d.value < d.lower.getD p.lower ∧ d.upper.getD p.upper < d.value ∧
        ParseError.ofElementError name.position d.value cause =
          .upperLimit name.position d.name d.value (d.upper.getD p.upper)) ∧
    (d.upper.getD p.upper < d.lower.getD p.lower →
      d.value < d.lower.getD p.lower ∨ d.upper.getD p.upper < d.value) := by
  refine ⟨fun stop defined hdefined => h.run_definition stop hdefined, fun hlower => ?_,
    fun hlower hupper => ?_, Leaf.parameter_element_define h.parameter h.fresh,
    fun cause hset => h.ofElementError_of_setParameter hset, h.lt_or_lt_of_cross⟩
  · refine h.parse_eq_error fun stop defined hdefined => ?_
    rw [h.run_definition stop hdefined, if_pos hlower]
  · refine h.parse_eq_error fun stop defined hdefined => ?_
    rw [h.run_definition stop hdefined, if_neg hlower, if_pos hupper]

end Violation

/-- The limits cross, and the value is above both of them. Nothing after them is looked at, not
    even that the block and the brackets are still open. -/
theorem parse_of_definition_crossed :
    ∃ x p d before name taken, ComesTo "[(RK\x7bt=1,R=9/7/3F" x p d before name taken [] ∧
      d.upper.getD p.upper < d.lower.getD p.lower ∧
      parse "[(RK\x7bt=1,R=9/7/3F" = .error (.upperLimit 9 "R" 9 3) := by
  have hopens : Opens [⟨.openBracket, "[", 0, 1⟩, ⟨.openParen, "(", 1, 2⟩, ⟨.symbol, "R", 2, 3⟩] :=
    .node (.bracket .parallel (.bracket .series .nil rfl) rfl)
      (.element rfl (by decide) .absent)
      (List.forall_mem_singleton.mpr (Leaf.valid_bare .resistor))
  have htime : Defines [⟨.identifier, "t", 5, 6⟩, ⟨.equals, "=", 6, 7⟩, ⟨.number, "1", 7, 8⟩]
      ⟨"t", 1, none, none, false⟩ :=
    .mk rfl rfl ⟨rfl, by decide +kernel⟩ .none .absent
  have hresistance : Defines
      [⟨.identifier, "R", 9, 10⟩, ⟨.equals, "=", 10, 11⟩, ⟨.number, "9", 11, 12⟩,
        ⟨.slash, "/", 12, 13⟩, ⟨.number, "7", 13, 14⟩, ⟨.slash, "/", 14, 15⟩,
        ⟨.number, "3", 15, 16⟩, ⟨.identifier, "F", 16, 17⟩]
      ⟨"R", 9, some 7, some 3, true⟩ :=
    .mk rfl rfl ⟨rfl, by decide +kernel⟩
      (.both rfl ⟨rfl, by decide +kernel⟩ rfl ⟨rfl, by decide +kernel⟩) (.present rfl rfl)
  have hblock : Precedes (_ ++ [⟨.symbol, "K", 3, 4⟩, ⟨.openBrace, "\x7b", 4, 5⟩])
      ⟨.kramersKronig, [], none⟩ :=
    .first hopens rfl (by decide) rfl
  have hvalid : (Leaf.define ⟨.kramersKronig, [], none⟩ ⟨"t", 1, none, none, false⟩).Valid :=
    (Leaf.valid_define_iff hblock.valid (p := ⟨"t", 1, 1e-24, .infinity, "s", false⟩) rfl
      (by simp)).mpr (by decide +kernel)
  have hbefore : Precedes (_ ++ (_ ++ [⟨.comma, ",", 8, 9⟩])) _ := .next hblock htime hvalid rfl
  have hcomes : ComesTo "[(RK\x7bt=1,R=9/7/3F" _ ⟨"R", 1, -.infinity, .infinity, "ohm", false⟩
      _ _ _ _ [] :=
    ⟨by decide +kernel, by decide +kernel, hbefore, hresistance, .nil, rfl, by decide +kernel⟩
  have hcross : (3 : Number) < 7 := by decide +kernel
  exact ⟨_, _, _, _, _, _, hcomes, hcross,
    (parse_of_definition hcomes).2.2.1 (by decide +kernel) (by decide +kernel)⟩

end CircuitCode
