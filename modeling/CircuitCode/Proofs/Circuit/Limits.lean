import CircuitCode.Proofs.Circuit.Built
import CircuitCode.Proofs.Circuit.RoundTrip
import CircuitCode.Proofs.Parsing.Definition
import CircuitCode.Proofs.Parsing.Places

/-!
# Limits in the texts of circuits

Rounding never makes a value pass its limits. A value and its limits are rounded one by one in the
text of a parameter, and a limit that is written like that of the kind is left out, but what is
read of them is in order again (`Parameter.run_bounded_text`). So the text of a circuit is never
refused for a limit: if it is refused, an infinity and the mark of a fixed parameter are one word
in it (`atFixedInfinity_of_parse_text`).
-/

namespace CircuitCode

open Grammar

/-- An infinity that is one word with the mark of a fixed parameter was found instead of a
    number. -/
def ParseError.AtFixedInfinity (e : ParseError) : Prop :=
  ∃ position, e = .expectedNumber position (some "infF") ∨
    e = .expectedNumber position (some "-infF")

namespace TokenReader

/-- A value and its limits, which follow the equals sign of a definition. Limits that are missing
    are as defined. -/
def bounded (stop : Nat) (definition : ParameterDefinition) :
    TokenReader (Number × Number × Number) := do
  let value ← number stop
  let (lower, upper) ← limits stop definition
  return (value, lower, upper)

variable {stop decimals : Nat} {definition : ParameterDefinition} {tokens rest : List Token}

/-- A parameter is set to the value and the limits that are read, and to nothing else. -/
theorem assignment_eq_bounded (e : Element) (position : Nat) :
    assignment stop e definition position =
      (do
        let _ ← ofKind stop .equals .parameterDefinition
        let bounds ← bounded stop definition
        let fixed ← takeIf isFixedFlag
        StateT.lift ((e.setParameter definition.name bounds.1 bounds.2.1 bounds.2.2
          fixed).mapError (.ofElementError position bounds.1))) := by
  unfold assignment bounded
  simp only [bind_assoc, pure_bind]
  congr 1
  funext _
  congr 1
  funext value
  congr 1
  funext limits
  congr 1
  funext fixed
  cases e.setParameter definition.name value limits.1 limits.2 fixed <;> rfl

/-- What is read of a definition are its numbers, and the limits of the kind where it has none. -/
theorem exists_run_bounded (stop : Nat) (definition : ParameterDefinition) {name equals : Token}
    {d : Definition}
    (h : Defines (name :: equals :: tokens) d) (hrest : DefinitionEnds rest) :
    ∃ after, (bounded stop definition).run (tokens ++ rest) =
      .ok ((d.value, d.lower.getD definition.lower, d.upper.getD definition.upper), after) := by
  cases h with
  | @mk _ _ token limits flag value lower upper fixed _ _ hnumber hlimits hflag =>
    have hread : (TokenReader.limits stop definition).run (limits ++ (flag ++ rest)) =
        .ok ((lower.getD definition.lower, upper.getD definition.upper), flag ++ rest) :=
      (run_limits_eq_ok_iff (not_isSlash_of_flag hflag hrest.1)).mpr
        ⟨limits, lower, upper, rfl, hlimits, rfl, rfl⟩
    refine ⟨flag ++ rest, ?_⟩
    rw [List.cons_append, List.append_assoc]
    unfold bounded
    rw [run_bind_of_ok (run_number_eq_ok_iff.mpr ⟨token, rfl, hnumber⟩), run_bind_of_ok hread]
    rfl

/-- An infinity that is one word with the mark after it is no number. -/
theorem exists_token_of_flagged {x : Number} (hx : x.isInfinite = true)
    (h : tokens.map Token.lexeme = flagged decimals x true) :
    ∃ token, tokens = [token] ∧ isSlash token = false ∧ ∃ e, e.AtFixedInfinity ∧
      ∀ stop rest, (number stop).run (token :: rest) = .error e := by
  obtain ⟨token, rfl, hword⟩ : ∃ token, tokens = [token] ∧
      (token.lexeme = (.number, "-infF") ∨ token.lexeme = (.identifier, "infF")) := by
    have hflagged : flagged decimals x true = [(.number, "-infF")] ∨
        flagged decimals x true = [(.identifier, "infF")] := flagged_of_isInfinite hx
    rcases hflagged with hword | hword <;> rw [hword] at h
    all_goals
      obtain ⟨token, tokens, rfl, htoken, hrest⟩ := List.map_eq_cons_iff.mp h
      obtain rfl := List.map_eq_nil_iff.mp hrest
      simp [htoken]
  have hliteral : Number.ofLiteral? "-infF" = none := by decide
  refine ⟨token, rfl, ?_, .expectedNumber token.position (some token.text), ?_, ?_⟩ <;>
    obtain ⟨hkind, htext⟩ | ⟨hkind, htext⟩ := hword.imp Prod.mk.inj Prod.mk.inj
  · simp [isSlash, hkind]
  · simp [isSlash, hkind]
  · exact ⟨token.position, .inr (by rw [htext])⟩
  · exact ⟨token.position, .inl (by rw [htext])⟩
  · intro stop rest
    simp [number, StateT.run, hkind, htext, hliteral]
  · intro stop rest
    simp [number, StateT.run, hkind]

/-- Nothing is read of a definition with such an infinity. -/
theorem run_bounded_of_not_flagApart (stop : Nat) (definition : ParameterDefinition)
    {name equals : Token} {d : Definition}
    (hnumber : ∀ y ∈ d.numbers, y.isNaN = false) (hapart : ¬ d.FlagApart)
    (h : (name :: equals :: tokens).map Token.lexeme = d.lexemes decimals) :
    ∃ e, e.AtFixedInfinity ∧
      ∀ rest, (bounded stop definition).run (tokens ++ rest) = .error e := by
  obtain ⟨text, value, lower, upper, fixed⟩ := d
  obtain ⟨hfixed, hlast⟩ := not_not.mp hapart
  obtain rfl : fixed = true := hfixed
  have hvalue : value.isNaN = false := hnumber value List.mem_cons_self
  obtain ⟨-, htokens⟩ := List.cons.inj (List.cons.inj h).2
  have hslash {token : Token} (hlexeme : token.lexeme = (.slash, "/")) : token.kind = .slash :=
    (Prod.mk.inj hlexeme).1
  have hread {token : Token} {x : Number} (hx : x.isNaN = false)
      (hlexeme : token.lexeme = (.number, x.code decimals)) (tokens : List Token) :
      (number stop).run (token :: tokens) = .ok (x.reread decimals, tokens) :=
    run_number_eq_ok_iff.mpr ⟨token, rfl, .of_lexeme hx hlexeme⟩
  -- the last number is not read, whatever stands between it and the value
  have hbounded {token : Token} {more : List Token} {e : ParseError}
      (hlexeme : token.lexeme = (.number, value.code decimals))
      (hlimits : ∀ rest, (limits stop definition).run (more ++ rest) = .error e)
      (rest : List Token) :
      (bounded stop definition).run (token :: more ++ rest) = .error e := by
    unfold bounded
    rw [List.cons_append, run_bind_of_ok (hread hvalue hlexeme _)]
    exact run_bind_of_error (hlimits rest)
  clear h hapart
  cases lower with
  | none =>
    cases upper with
    | none =>
      obtain ⟨token, rfl, hmark, e, he, hrun⟩ := exists_token_of_flagged hlast htokens
      exact ⟨e, he, fun rest => run_bind_of_error (hrun stop rest)⟩
    | some upper =>
      obtain ⟨token, tokens, rfl, htoken, htokens⟩ := List.map_eq_cons_iff.mp htokens
      obtain ⟨slash, tokens, rfl, hs, htokens⟩ := List.map_eq_cons_iff.mp htokens
      obtain ⟨slash', tokens, rfl, hs', htokens⟩ := List.map_eq_cons_iff.mp htokens
      obtain ⟨last, rfl, hmark, e, he, hrun⟩ := exists_token_of_flagged hlast htokens
      refine ⟨e, he, hbounded htoken fun rest => ?_⟩
      refine run_limits_of_upperLimit_error (hslash hs)
        (run_lowerLimit_eq_ok_iff.mpr (.inl ⟨rfl, ?_, rfl⟩)) ?_
      · exact isSlash_eq_true_iff.mpr (hslash hs')
      · exact (run_upperLimit_of_slash (hslash hs')).trans (hrun stop rest)
  | some lower =>
    have hlower : lower.isNaN = false := hnumber lower (by simp [Definition.numbers])
    cases upper with
    | none =>
      obtain ⟨token, tokens, rfl, htoken, htokens⟩ := List.map_eq_cons_iff.mp htokens
      obtain ⟨slash, tokens, rfl, hs, htokens⟩ := List.map_eq_cons_iff.mp htokens
      obtain ⟨last, rfl, hmark, e, he, hrun⟩ := exists_token_of_flagged hlast htokens
      refine ⟨e, he, hbounded htoken fun rest => ?_⟩
      refine run_limits_of_lowerLimit_error (hslash hs) ?_
      exact (run_lowerLimit_of_not_isSlash (by simpa using hmark)).trans (hrun stop rest)
    | some upper =>
      obtain ⟨token, tokens, rfl, htoken, htokens⟩ := List.map_eq_cons_iff.mp htokens
      obtain ⟨slash, tokens, rfl, hs, htokens⟩ := List.map_eq_cons_iff.mp htokens
      obtain ⟨token', tokens, rfl, htoken', htokens⟩ := List.map_eq_cons_iff.mp htokens
      obtain ⟨slash', tokens, rfl, hs', htokens⟩ := List.map_eq_cons_iff.mp htokens
      obtain ⟨last, rfl, hmark, e, he, hrun⟩ := exists_token_of_flagged hlast htokens
      refine ⟨e, he, hbounded htoken fun rest => ?_⟩
      refine run_limits_of_upperLimit_error (hslash hs)
        (run_lowerLimit_eq_ok_iff.mpr (.inr ⟨token', rfl, .of_lexeme hlower htoken'⟩)) ?_
      exact (run_upperLimit_of_slash (hslash hs')).trans (hrun stop rest)

/-- A definition starts with its name and an equals sign. -/
theorem exists_cons_of_lexemes {d : Definition} (h : tokens.map Token.lexeme = d.lexemes decimals) :
    ∃ name equals more, tokens = name :: equals :: more ∧ name.kind = .identifier ∧
      name.text = d.name ∧ equals.kind = .equals := by
  obtain ⟨name, tokens, rfl, hname, h⟩ := List.map_eq_cons_iff.mp h
  obtain ⟨equals, tokens, rfl, hequals, -⟩ := List.map_eq_cons_iff.mp h
  obtain ⟨hkind, htext⟩ := Prod.mk.inj hname
  exact ⟨name, equals, tokens, rfl, hkind, htext, (Prod.mk.inj hequals).1⟩

section Block

variable {x y : Leaf} {defined : List String} {remaining : Nat}

/-- A block fails at such an infinity in its next definition. -/
theorem run_block_of_not_flagApart {d : Definition}
    (hdefined : ∀ name, name ∈ defined ↔ name ∈ x.definitions.map Definition.name)
    (hvalid : (x.define (d.reread decimals)).Valid) (hnumber : ∀ y ∈ d.numbers, y.isNaN = false)
    (hapart : ¬ d.FlagApart) (h : tokens.map Token.lexeme = d.lexemes decimals) :
    ∃ e, e.AtFixedInfinity ∧
      (block stop x.element defined (remaining + 1)).run (tokens ++ rest) = .error e := by
  obtain ⟨name, equals, tokens, rfl, hkind, htext, hequals⟩ := exists_cons_of_lexemes h
  obtain ⟨⟨p, hp⟩, hfresh⟩ := hvalid.of_define
  obtain ⟨e, he, hrun⟩ := run_bounded_of_not_flagApart stop p hnumber hapart h
  simp only [List.cons_append]
  refine ⟨e, he, run_block_of_definition_error hkind ?_⟩
  have hp' : x.element.kind.parameter? name.text = some p := htext ▸ hp
  have hfresh' : name.text ∉ defined := by
    rw [hdefined, htext]
    exact hfresh
  unfold TokenReader.definition
  simp only [hp', if_neg hfresh']
  rw [assignment_eq_bounded, run_bind_of_ok (run_ofKind_eq_ok_iff.mpr ⟨rfl, hequals⟩)]
  exact run_bind_of_error (hrun rest)

/-- The definitions of a block are read up to such an infinity. -/
theorem run_block_or_flagApart {ds : List Definition} {label : Option String} (hx : x.Valid)
    (hlabel : x.label = none)
    (hdefined : ∀ name, name ∈ defined ↔ name ∈ x.definitions.map Definition.name)
    (hremaining : ds.length ≤ remaining)
    (hvalid : (x.extend (ds.map (Definition.reread decimals)) label).Valid)
    (hnumber : ∀ d ∈ ds, ∀ y ∈ d.numbers, y.isNaN = false)
    (h : tokens.map Token.lexeme = Leaf.definitionLexemes decimals ds ++ y.closeLexemes) :
    (∃ e, e.AtFixedInfinity ∧
      (block stop x.element defined remaining).run (tokens ++ rest) = .error e) ∨
    ∀ d ∈ ds, d.FlagApart := by
  induction ds generalizing x defined remaining tokens with
  | nil => exact .inr (List.forall_mem_nil _)
  | cons d ds ih =>
    rw [List.forall_mem_cons] at hnumber ⊢
    rw [List.map_cons, Leaf.extend_cons] at hvalid
    have hvalid' : (x.define (d.reread decimals)).Valid := hvalid.of_extend hlabel
    rw [List.length_cons] at hremaining
    obtain ⟨n, rfl⟩ := Nat.exists_eq_succ_of_ne_zero (n := remaining) (by omega)
    obtain ⟨taken, tail, rfl, htaken, htail⟩ : ∃ taken tail, tokens = taken ++ tail ∧
        taken.map Token.lexeme = d.lexemes decimals ∧
        (ds ≠ [] → ∃ comma more, tail = comma :: more ∧ comma.kind = .comma ∧
          more.map Token.lexeme = Leaf.definitionLexemes decimals ds ++ y.closeLexemes) := by
      cases ds with
      | nil =>
        obtain ⟨taken, tail, rfl, htaken, -⟩ := List.map_eq_append_iff.mp h
        exact ⟨taken, tail, rfl, htaken, absurd rfl⟩
      | cons d' ds =>
        rw [Leaf.definitionLexemes, List.append_assoc, List.cons_append] at h
        obtain ⟨taken, tail, rfl, htaken, htail⟩ := List.map_eq_append_iff.mp h
        obtain ⟨comma, more, rfl, hcomma, hmore⟩ := List.map_eq_cons_iff.mp htail
        exact ⟨taken, comma :: more, rfl, htaken,
          fun _ => ⟨comma, more, rfl, (Prod.mk.inj hcomma).1, hmore⟩⟩
    rw [List.append_assoc]
    by_cases hapart : d.FlagApart
    · by_cases hne : ds = []
      · subst hne
        exact .inr ⟨hapart, List.forall_mem_nil _⟩
      obtain ⟨comma, more, rfl, hcomma, hmore⟩ := htail hne
      have hdefines := Defines.of_lexemes hnumber.1 hapart htaken
      obtain ⟨name, equals, taken, rfl, hkind, htext, -⟩ := exists_cons_of_lexemes htaken
      have hdefined' (other : String) : other ∈ name.text :: defined ↔
          other ∈ (x.define (d.reread decimals)).definitions.map Definition.name := by
        simp [Leaf.define, hdefined, or_comm, htext, Definition.reread]
      have hends : DefinitionEnds (comma :: (more ++ rest)) := by
        simp [DefinitionEnds, isSlash, isFixedFlag, hcomma]
      have hread : (TokenReader.definition stop x.element defined name).run
          (equals :: taken ++ comma :: (more ++ rest)) =
            .ok ((x.define (d.reread decimals)).element, comma :: (more ++ rest)) :=
        run_definition_of_valid hdefines hends.endsBefore hx hdefined hvalid'
      have hremaining' : ds.length ≤ n := by omega
      refine (ih hvalid' hlabel hdefined' hremaining' hvalid hnumber.2 hmore).imp ?_
        (fun hothers => ⟨hapart, hothers⟩)
      rintro ⟨e, he, hrun⟩
      refine ⟨e, he, ?_⟩
      rw [← hrun]
      exact run_block_of_comma hkind hread hcomma
    · exact .inl (run_block_of_not_flagApart hdefined hvalid' hnumber.1 hapart htaken)

end Block

end TokenReader

namespace Grammar

/-- No infinity stands before the mark of a fixed parameter in the text of an element. -/
def FlagsApart (decimals : Nat) (e : Element) : Prop :=
  ∀ d ∈ (e.printed decimals).definitions, d.FlagApart

/-- Printed elements derive themselves with every number read back. -/
theorem DerivesNode.of_flagsApart {decimals : Nat} {root : Node Element}
    (hwell : ∀ e ∈ root.leaves, e.WellFormed) (hfilled : root.Filled)
    (hapart : ∀ e ∈ root.leaves, FlagsApart decimals e) {tokens : List Token}
    (h : tokens.map Token.lexeme = root.lexemes fun e => (e.printed decimals).lexemes decimals) :
    DerivesNode tokens (root.map fun e => (e.printed decimals).reread decimals) := by
  refine .of_lexemes (fun e he tokens htokens => ?_) hfilled h
  exact .of_leaf_lexemes ((hwell e he).definitions_ne_nil decimals)
    ((hwell e he).writable decimals) (hapart e he) htokens

/-- No block starts where the text of a tree does. -/
theorem head?_of_lexemes {α : Type} {leaf : α → List (TokenKind × String)}
    (hleaf : ∀ a, ∃ text more, leaf a = (.symbol, text) :: more) {children : List (Node α)}
    {tokens rest : List Token}
    (h : tokens.map Token.lexeme = children.flatMap (Node.lexemes leaf))
    (hrest : rest.head?.any TokenReader.isOpenBrace = false) :
    (tokens ++ rest).head?.any TokenReader.isOpenBrace = false := by
  cases children with
  | nil =>
    obtain rfl := List.map_eq_nil_iff.mp h
    exact hrest
  | cons child children =>
    obtain ⟨kind, text, more, hlexemes, hkind⟩ : ∃ kind text more,
        child.lexemes leaf = (kind, text) :: more ∧ kind ≠ .openBrace := by
      cases child with
      | leaf a =>
        obtain ⟨text, more, ha⟩ := hleaf a
        exact ⟨_, _, _, ha, by decide⟩
      | branch kind children =>
        exact ⟨_, _, _, Node.lexemes_branch, bracketKinds_fst_ne_openBrace kind⟩
    rw [List.flatMap_cons, hlexemes, List.cons_append] at h
    obtain ⟨token, tokens, rfl, htoken, -⟩ := List.map_eq_cons_iff.mp h
    simpa [TokenReader.isOpenBrace, (Prod.mk.inj htoken).1] using hkind

end Grammar

namespace Items

open TokenReader

variable {stop decimals : Nat}

/-- From the tokens of printed elements on the machine fails at such an infinity, unless there is
    none. -/
def FailsUnlessApart (stop decimals : Nat) (tokens : List Token) (elements : List Element) : Prop :=
  ∀ (outer : List OpenConnection) (nodes : List (Node Element)) (rest : List Token),
    LabelsTrimmed (tokens ++ rest) → rest.head?.any isOpenBrace = false →
    (∃ e, e.AtFixedInfinity ∧ parseFrom stop outer nodes (tokens ++ rest) = .error e) ∨
      ∀ e ∈ elements, FlagsApart decimals e

theorem failsUnlessApart_leaf {e : Element} (he : e.WellFormed) {tokens : List Token}
    (h : tokens.map Token.lexeme = (e.printed decimals).lexemes decimals) :
    FailsUnlessApart stop decimals tokens [e] := by
  intro outer nodes rest _ _
  obtain ⟨symbol, tokens, rfl, hsymbol, h⟩ := List.map_eq_cons_iff.mp h
  obtain ⟨brace, tokens, rfl, hbrace, h⟩ := List.map_eq_cons_iff.mp h
  obtain ⟨hkind, htext⟩ := Prod.mk.inj hsymbol
  have hknown : ElementKind.ofSymbol? symbol.text = some e.kind := by
    rw [htext]
    exact ElementKind.ofSymbol?_symbol e.kind
  have hvalid := he.valid_reread_printed decimals
  have hlength : (e.printed decimals).definitions.length ≤ e.kind.parameters.length := by
    have hle := hvalid.length_le
    rwa [Leaf.reread, List.length_map] at hle
  have hblock : (∃ cause, cause.AtFixedInfinity ∧ (block stop (⟨e.kind, [], none⟩ : Leaf).element []
      e.kind.parameters.length).run (tokens ++ rest) = .error cause) ∨ FlagsApart decimals e :=
    run_block_or_flagApart (Leaf.valid_bare e.kind) rfl (by simp) hlength hvalid
      (he.writable decimals).number h
  rw [List.forall_mem_singleton]
  refine hblock.imp_left ?_
  rintro ⟨cause, hcause, hrun⟩
  exact ⟨cause, hcause, parseFrom_of_block_error hkind hknown (Prod.mk.inj hbrace).1 hrun⟩

/-- Nodes fail at the first one that does. -/
theorem failsUnlessApart_nodes {children : List (Node Element)}
    (hwell : ∀ child ∈ children, ∀ e ∈ child.leaves, e.WellFormed)
    (hfilled : ∀ child ∈ children, child.Filled)
    (hnode : ∀ child ∈ children, ∀ tokens : List Token,
      tokens.map Token.lexeme = child.lexemes (fun e => (e.printed decimals).lexemes decimals) →
        FailsUnlessApart stop decimals tokens child.leaves)
    {tokens : List Token} (h : tokens.map Token.lexeme =
      children.flatMap (Node.lexemes fun e => (e.printed decimals).lexemes decimals)) :
    FailsUnlessApart stop decimals tokens (children.flatMap Node.leaves) := by
  intro outer nodes rest hlabels hrest
  induction children generalizing tokens nodes with
  | nil => exact .inr (List.forall_mem_nil _)
  | cons child children ih =>
    rw [List.forall_mem_cons] at hwell hfilled hnode
    obtain ⟨taken, tokens, rfl, htaken, h⟩ := List.map_eq_append_iff.mp h
    rw [List.flatMap_cons, List.forall_mem_append]
    rw [List.append_assoc] at hlabels ⊢
    have hhead : (tokens ++ rest).head?.any isOpenBrace = false :=
      head?_of_lexemes (fun e => ⟨_, _, rfl⟩) h hrest
    rcases hnode.1 taken htaken outer nodes (tokens ++ rest) hlabels hhead with hfails | hapart
    · exact .inl hfails
    · have hderives := DerivesNode.of_flagsApart hwell.1 hfilled.1 hapart htaken
      have hvalid : ∀ x ∈ (child.map fun e => (e.printed decimals).reread decimals).leaves,
          x.Valid := by
        rw [Node.leaves_map]
        exact List.forall_mem_map.mpr fun e he => (hwell.1 e he).valid_reread_printed decimals
      rw [parseFrom_node hderives hvalid outer nodes (tokens ++ rest) hlabels hhead]
      have hlabels' : LabelsTrimmed (tokens ++ rest) :=
        hlabels.of_suffix (List.suffix_append _ _)
      exact (ih hwell.2 hfilled.2 hnode.2 h _ hlabels').imp_right
        fun hothers => ⟨hapart, hothers⟩

theorem failsUnlessApart {root : Node Element} (hwell : ∀ e ∈ root.leaves, e.WellFormed)
    (hfilled : root.Filled) {tokens : List Token}
    (h : tokens.map Token.lexeme = root.lexemes fun e => (e.printed decimals).lexemes decimals) :
    FailsUnlessApart stop decimals tokens root.leaves := by
  induction root using Node.induction generalizing tokens with
  | leaf e => exact failsUnlessApart_leaf (hwell e (List.mem_singleton.mpr rfl)) h
  | branch kind children ih =>
    intro outer nodes rest hlabels hrest
    obtain ⟨-, hchildren⟩ := Node.filled_branch.mp hfilled
    rw [Node.lexemes_branch] at h
    obtain ⟨opening, tokens, rfl, hopening, h⟩ := List.map_eq_cons_iff.mp h
    obtain ⟨inner, tokens, rfl, hinner, h⟩ := List.map_eq_append_iff.mp h
    obtain ⟨closing, tokens, rfl, hclosing, h⟩ := List.map_eq_cons_iff.mp h
    obtain rfl := List.map_eq_nil_iff.mp h
    have hwell' (child : Node Element) (hchild : child ∈ children) :
        ∀ e ∈ child.leaves, e.WellFormed :=
      fun e he => hwell e (Node.mem_leaves_branch.mpr ⟨child, hchild, he⟩)
    have hnodes := failsUnlessApart_nodes hwell' hchildren
      (fun child hchild tokens htokens =>
        ih child hchild (hwell' child hchild) (hchildren child hchild) htokens) hinner
    rw [Node.leaves_branch]
    rw [List.cons_append, List.append_assoc] at hlabels ⊢
    rw [parseFrom_opening (Prod.mk.inj hopening).1]
    refine hnodes _ [] _ (hlabels.of_suffix (List.suffix_cons _ _)) ?_
    simp [isOpenBrace, (Prod.mk.inj hclosing).1, bracketKinds_snd_ne_openBrace]

end Items

/-- A definition ends before one of these marks. -/
theorem endsDefinition_of_mark {c : Char} {more : List Char} (hc : c ∈ [',', ':', '\x7d'])
    {cursor : Cursor} (hcursor : cursor.rest = c :: more) :
    TokenReader.EndsDefinition (scanFrom .block cursor).tokens := by
  obtain ⟨kind, hpunctuation, hkind⟩ : ∃ kind, TokenKind.punctuation? c = some kind ∧
      (kind = .comma ∨ kind = .colon ∨ kind = .closeBrace) := by
    simp only [List.mem_cons, List.not_mem_nil, or_false] at hc
    rcases hc with rfl | rfl | rfl
    · exact ⟨_, rfl, .inl rfl⟩
    · exact ⟨_, rfl, .inr (.inl rfl)⟩
    · exact ⟨_, rfl, .inr (.inr rfl)⟩
  have hmark : Scans .block [c] more [(kind, String.ofList [c])] (LexicalMode.block.after kind) :=
    .mark (by decide) hpunctuation
  obtain ⟨tokens, next, hlexemes, -, hscan⟩ := hmark cursor hcursor
  obtain ⟨token, rest, rfl, htoken, -⟩ := List.map_eq_cons_iff.mp hlexemes
  rw [hscan]
  exact ⟨token, _, rfl, (Prod.mk.inj htoken).1 ▸ hkind⟩

/-- Of the text of a parameter in order its numbers are read, with those of the kind in the place of
    limits that are left out, unless an infinity is one word with the mark of a fixed parameter. -/
theorem Parameter.run_bounded_text {kind : ElementKind} {definition : ParameterDefinition}
    (hd : definition ∈ kind.parameters) {p : Parameter} (hname : p.name = definition.name)
    (hp : p.Ordered) (decimals : Nat) {cursor : Cursor} {c : Char} {more : List Char}
    (hc : c ∈ [',', ':', '\x7d'])
    (hcursor : cursor.rest = (p.text definition decimals).toList ++ c :: more) :
    ∃ name equals tokens, (scanFrom .block cursor).tokens = name :: equals :: tokens ∧
      name.text = p.name ∧ ∀ stop,
        ((p.printed decimals definition).FlagApart → ∃ rest,
          (TokenReader.bounded stop definition).run tokens = .ok
            (((p.reread decimals definition).value, (p.reread decimals definition).lower,
              (p.reread decimals definition).upper), rest)) ∧
        (¬ (p.printed decimals definition).FlagApart → ∃ e, e.AtFixedInfinity ∧
          (TokenReader.bounded stop definition).run tokens = .error e) := by
  have hidentifier : Lexeme.isName (p.printed decimals definition).name.toList = true := by
    rw [Parameter.printed, hname]
    exact Element.isName_definition kind definition hd
  have hnumber : ∀ y ∈ (p.printed decimals definition).numbers, y.isNaN = false :=
    Element.isNaN_numbers_printed hp decimals
  have hmark : (c :: more).head?.any Lexeme.isIdentifierChar = false := by
    simp only [List.mem_cons, List.not_mem_nil, or_false] at hc
    rcases hc with rfl | rfl | rfl <;> rfl
  rw [← Parameter.text_printed] at hcursor
  obtain ⟨taken, next, hlexemes, hnext, hscan⟩ :=
    Scans.definition hidentifier hnumber hmark cursor hcursor
  obtain ⟨name, equals, tokens, rfl, -, htext, -⟩ := TokenReader.exists_cons_of_lexemes hlexemes
  refine ⟨name, equals, tokens ++ (scanFrom .block next).tokens, ?_, htext, fun stop => ⟨?_, ?_⟩⟩
  · rw [hscan]
    rfl
  · intro hapart
    have hends := (endsDefinition_of_mark hc hnext).definitionEnds
    have hdefines := Defines.of_lexemes hnumber hapart hlexemes
    obtain ⟨rest, hrun⟩ := TokenReader.exists_run_bounded stop definition hdefines hends
    rw [Element.getD_lower_reread_printed, Element.getD_upper_reread_printed] at hrun
    exact ⟨rest, hrun⟩
  · intro hapart
    obtain ⟨e, he, hrun⟩ :=
      TokenReader.run_bounded_of_not_flagApart stop definition hnumber hapart hlexemes
    exact ⟨e, he, hrun _⟩

/-- The text of a tree of elements is refused only for an infinity that is one word with the mark of
    a fixed parameter. -/
theorem atFixedInfinity_of_parse_text {root : Node Element} {decimals : Nat} {e : ParseError}
    (hwell : ∀ e ∈ root.leaves, e.WellFormed) (hfilled : root.Filled)
    (h : parse (root.text (some decimals)) = .error e) : e.AtFixedInfinity := by
  obtain ⟨hstray, hlexemes⟩ := tokenize_text decimals hwell
  have hlabels := labelsTrimmed_tokenize (root.text (some decimals))
  have hmachine : Items.FailsUnlessApart (byteLength (root.text (some decimals)).toList) decimals
      (tokenize (root.text (some decimals))).tokens root.leaves :=
    Items.failsUnlessApart hwell hfilled hlexemes
  rcases hmachine [] [] [] (by simpa using hlabels) rfl with ⟨cause, hcause, hrun⟩ | hapart
  · rw [List.append_nil] at hrun
    simp only [parse, Parser.process, hstray] at h
    change (Items.parseFrom _ [] [] _ >>= _) = _ at h
    rw [hrun] at h
    cases h
    exact hcause
  · rw [parse_text_eq hwell hfilled hapart] at h
    cases h

/-- Rounding never makes printed limits contradictory. For every parameter whose value is within its
    limits and every number of decimals, the numbers that are read of its text, with the limits of
    the kind in the place of those that are left out, are in order again; they are read unless an
    infinity is one word with the mark of a fixed parameter. So the text of an element, a connection
    or a circuit is never refused for a limit, but only where such a word is. -/
theorem rounded_limits_ordered :
    (∀ (kind : ElementKind) (definition : ParameterDefinition), definition ∈ kind.parameters →
      ∀ p : Parameter, p.name = definition.name → p.lower ≤ p.value ∧ p.value ≤ p.upper →
      ∀ (decimals : Nat) (cursor : Cursor) (c : Char) (more : List Char), c ∈ [',', ':', '\x7d'] →
        cursor.rest = (p.text definition decimals).toList ++ c :: more →
        ∃ name equals tokens, (scanFrom .block cursor).tokens = name :: equals :: tokens ∧
          name.text = p.name ∧ ∀ stop,
            ((p.printed decimals definition).FlagApart → ∃ value lower upper rest,
              (TokenReader.bounded stop definition).run tokens = .ok ((value, lower, upper), rest) ∧
                lower ≤ value ∧ value ≤ upper) ∧
            (¬ (p.printed decimals definition).FlagApart → ∃ e, e.AtFixedInfinity ∧
              (TokenReader.bounded stop definition).run tokens = .error e)) ∧
    (∀ node : Node Element, node.Built → ∀ (decimals : Nat) (e : ParseError),
      parse (node.text (some decimals)) = .error e → e.AtFixedInfinity) ∧
    ∀ c : Circuit, c.Built → ∀ (decimals : Nat) (e : ParseError),
      parse (c.code (some decimals)) = .error e → e.AtFixedInfinity := by
  have htree (node : Node Element) (hnode : node.Built) (decimals : Nat) (e : ParseError)
      (h : parse (node.text (some decimals)) = .error e) : e.AtFixedInfinity :=
    atFixedInfinity_of_parse_text hnode.regular.wellFormed hnode.regular.filled h
  refine ⟨?_, htree, fun c hc decimals e h => htree _ (.connection (.root hc)) decimals e h⟩
  intro kind definition hd p hname hp decimals cursor c more hc hcursor
  obtain ⟨name, equals, tokens, hscan, htext, hrun⟩ :=
    Parameter.run_bounded_text hd hname hp decimals hc hcursor
  refine ⟨name, equals, tokens, hscan, htext, fun stop => ⟨fun hapart => ?_, (hrun stop).2⟩⟩
  obtain ⟨rest, hread⟩ := (hrun stop).1 hapart
  obtain ⟨hlower, hupper⟩ := Parameter.Ordered.reread hp hd decimals
  exact ⟨_, _, _, rest, hread, hlower, hupper⟩

/-- A time constant below the lower limit of its kind, which is written like it. So the lower limit
    that the time constant has is left out. -/
def belowDefault : Parameter := ⟨"t", 9.97e-25, 9.96e-25, .infinity, false⟩

/-- A resistor of infinite resistance that is fixed. -/
def fixedOpen : Element :=
  (Element.ofKind .resistor).changed (.parameter "R" .infinity 0 .infinity true)

/-- The time constant is rounded up to the limit of the kind, and a fixed infinity is refused in the
    text of an element and in that of a circuit. -/
theorem rounded_limits_ordered_belowDefault :
    ∃ definition ∈ ElementKind.kramersKronig.parameters,
      belowDefault.value < definition.lower ∧ belowDefault.text definition 1 = "t=1.0E-24" ∧
      (∃ name equals tokens, (scanFrom .block (.start "t=1.0E-24\x7d".toList)).tokens =
          name :: equals :: tokens ∧
        ∃ value lower upper rest,
          (TokenReader.bounded 0 definition).run tokens = .ok ((value, lower, upper), rest) ∧
            lower ≤ value ∧ value ≤ upper) ∧
      (∃ e, parse ((Node.leaf fixedOpen).text (some 6)) = .error e ∧ e.AtFixedInfinity) ∧
      ∃ e, parse (Circuit.openResistor.code (some 6)) = .error e ∧ e.AtFixedInfinity := by
  obtain ⟨hparameter, hnode, hcircuit⟩ := rounded_limits_ordered
  refine ⟨⟨"t", 1, 1e-24, .infinity, "s", false⟩, ?_, by decide +kernel, by decide +kernel, ?_,
    ?_, ?_⟩
  · exact List.mem_cons_of_mem _ (List.mem_singleton.mpr rfl)
  · obtain ⟨name, equals, tokens, hscan, -, hrun⟩ := hparameter .kramersKronig
      ⟨"t", 1, 1e-24, .infinity, "s", false⟩
      (List.mem_cons_of_mem _ (List.mem_singleton.mpr rfl)) belowDefault rfl (by decide +kernel) 1
      (.start "t=1.0E-24\x7d".toList) '\x7d' [] (by simp) (by decide +kernel)
    exact ⟨name, equals, tokens, hscan, (hrun 0).1 (by decide +kernel)⟩
  · have hparse : parse ((Node.leaf fixedOpen).text (some 6)) =
        .error (.expectedNumber 4 (some "infF")) := by
      decide +kernel
    have hbuilt : fixedOpen.Built := (Element.Built.ofKind .resistor).changed _
    exact ⟨_, hparse, hnode _ (.leaf hbuilt) 6 _ hparse⟩
  · have hparse : parse (Circuit.openResistor.code (some 6)) =
        .error (.expectedNumber 5 (some "infF")) := by
      decide +kernel
    exact ⟨_, hparse, hcircuit _ (.parse Circuit.parse_openResistor) 6 _ hparse⟩

end CircuitCode
