import CircuitCode.Proofs.Connection.Tree
import CircuitCode.Proofs.Element.Printed
import CircuitCode.Proofs.Parsing.Machine

/-!
# Printed lexemes in the grammar

The lexemes of a printed element derive the element with every number read back
(`Grammar.Leaf.reread`), except where an infinity and the mark of a fixed parameter are one word:
nothing valid has such a token (`Grammar.DerivesNodes.readable`).
-/

namespace CircuitCode

namespace Grammar

/-- A definition with every number read back. -/
def Definition.reread (decimals : Nat) (d : Definition) : Definition :=
  ⟨d.name, d.value.reread decimals, d.lower.map (Number.reread decimals),
    d.upper.map (Number.reread decimals), d.fixed⟩

/-- An element with every number read back. -/
def Leaf.reread (decimals : Nat) (x : Leaf) : Leaf :=
  ⟨x.kind, x.definitions.map (Definition.reread decimals), x.label⟩

/-- No infinity stands before the mark of a fixed parameter. -/
def Definition.FlagApart (d : Definition) : Prop := ¬ (d.fixed = true ∧ d.last.isInfinite = true)

instance (d : Definition) : Decidable d.FlagApart :=
  inferInstanceAs (Decidable (¬ (d.fixed = true ∧ d.last.isInfinite = true)))

variable {decimals : Nat} {tokens : List Token}

theorem Leaf.definitionLexemes_subset {ds : List Definition} {d : Definition} (hd : d ∈ ds) :
    d.lexemes decimals ⊆ Leaf.definitionLexemes decimals ds := by
  intro lexeme hmem
  induction ds with
  | nil => cases hd
  | cons first ds ih =>
    cases ds with
    | nil =>
      obtain rfl := List.mem_singleton.mp hd
      exact hmem
    | cons next ds =>
      rw [definitionLexemes, List.mem_append, List.mem_cons]
      rcases List.mem_cons.mp hd with rfl | hd
      · exact Or.inl hmem
      · exact Or.inr (Or.inr (ih hd))

theorem Leaf.lexemes_subset {x : Leaf} {d : Definition} (hd : d ∈ x.definitions) :
    d.lexemes decimals ⊆ x.lexemes decimals := by
  intro lexeme hmem
  rw [lexemes, List.mem_cons, List.mem_cons, List.mem_append]
  exact Or.inr (Or.inr (Or.inl (definitionLexemes_subset hd hmem)))

/-- An infinity and the mark of a fixed parameter make one word. -/
theorem flagged_of_isInfinite {x : Number} (hx : x.isInfinite = true) :
    flagged decimals x true = [(.number, "-infF")] ∨
      flagged decimals x true = [(.identifier, "infF")] := by
  cases x with
  | nan negative => cases hx
  | infinite negative =>
    cases negative with
    | true => exact Or.inl rfl
    | false => exact Or.inr rfl
  | finite negative units h => cases hx

theorem mem_flagged_of_isInfinite {x : Number} (hx : x.isInfinite = true) :
    ((.number, "-infF") : TokenKind × String) ∈ flagged decimals x true ∨
      (.identifier, "infF") ∈ flagged decimals x true :=
  (flagged_of_isInfinite hx).imp (fun h => by rw [h]; exact List.mem_singleton_self _)
    (fun h => by rw [h]; exact List.mem_singleton_self _)

theorem Definition.mem_lexemes_of_not_flagApart {d : Definition} (hd : ¬ d.FlagApart) :
    ((.number, "-infF") : TokenKind × String) ∈ d.lexemes decimals ∨
      (.identifier, "infF") ∈ d.lexemes decimals := by
  obtain ⟨hfixed, hlast⟩ := not_not.mp hd
  have hsubset : flagged decimals d.last true ⊆ d.lexemes decimals := by
    obtain ⟨name, value, lower, upper, fixed⟩ := d
    obtain rfl : fixed = true := hfixed
    intro lexeme hmem
    cases lower <;> cases upper <;> simp_all [lexemes, last]
  exact (mem_flagged_of_isInfinite hlast).imp (fun h => hsubset h) (fun h => hsubset h)

theorem Numeral.of_lexeme {token : Token} {x : Number} (hx : x.isNaN = false)
    (h : token.lexeme = (.number, x.code decimals)) : Numeral token (x.reread decimals) := by
  obtain ⟨hkind, htext⟩ := Prod.mk.inj h
  refine ⟨hkind, ?_⟩
  rw [htext]
  exact Number.ofLiteral?_code hx decimals

/-- A number that is not one word with the mark after it, and the mark. -/
theorem Flag.of_lexemes {x : Number} {fixed : Bool} (hx : x.isNaN = false)
    (hapart : ¬ (fixed = true ∧ x.isInfinite = true))
    (h : tokens.map Token.lexeme = flagged decimals x fixed) :
    ∃ token flag, tokens = token :: flag ∧ Numeral token (x.reread decimals) ∧ Flag flag fixed := by
  cases fixed with
  | false =>
    obtain ⟨token, flag, rfl, htoken, hflag⟩ := List.map_eq_cons_iff.mp h
    obtain rfl := List.map_eq_nil_iff.mp hflag
    exact ⟨token, [], rfl, .of_lexeme hx htoken, .absent⟩
  | true =>
    cases x with
    | nan negative => cases hx
    | infinite negative => exact absurd ⟨rfl, rfl⟩ hapart
    | finite negative units hunits =>
      obtain ⟨token, flag, rfl, htoken, hflag⟩ := List.map_eq_cons_iff.mp h
      obtain ⟨mark, rest, rfl, hmark, hrest⟩ := List.map_eq_cons_iff.mp hflag
      obtain rfl := List.map_eq_nil_iff.mp hrest
      obtain ⟨hkind, htext⟩ := Prod.mk.inj hmark
      exact ⟨token, [mark], rfl, .of_lexeme hx htoken, .present hkind htext⟩

theorem Defines.of_lexemes {d : Definition} (hnumber : ∀ y ∈ d.numbers, y.isNaN = false)
    (hapart : d.FlagApart) (h : tokens.map Token.lexeme = d.lexemes decimals) :
    Defines tokens (d.reread decimals) := by
  obtain ⟨name, value, lower, upper, fixed⟩ := d
  have hvalue : value.isNaN = false := hnumber value List.mem_cons_self
  obtain ⟨nameToken, tokens, rfl, hname, h⟩ := List.map_eq_cons_iff.mp h
  obtain ⟨equals, tokens, rfl, hequals, h⟩ := List.map_eq_cons_iff.mp h
  obtain ⟨hnamekind, rfl⟩ := Prod.mk.inj hname
  have hequals : equals.kind = .equals := (Prod.mk.inj hequals).1
  have hslash {token : Token} (hlexeme : token.lexeme = (.slash, "/")) : token.kind = .slash :=
    (Prod.mk.inj hlexeme).1
  cases lower with
  | none =>
    cases upper with
    | none =>
      obtain ⟨number, flag, rfl, hnumber, hflag⟩ := Flag.of_lexemes hvalue hapart h
      exact .mk hnamekind hequals hnumber .none hflag
    | some upper =>
      have hupper : upper.isNaN = false := hnumber upper (by simp [Definition.numbers])
      obtain ⟨number, tokens, rfl, hnumber, h⟩ := List.map_eq_cons_iff.mp h
      obtain ⟨slash, tokens, rfl, hs, h⟩ := List.map_eq_cons_iff.mp h
      obtain ⟨slash', tokens, rfl, hs', h⟩ := List.map_eq_cons_iff.mp h
      obtain ⟨number', flag, rfl, hnumber', hflag⟩ := Flag.of_lexemes hupper hapart h
      exact .mk hnamekind hequals (.of_lexeme hvalue hnumber)
        (.upper (hslash hs) (hslash hs') hnumber') hflag
  | some lower =>
    have hlower : lower.isNaN = false := hnumber lower (by simp [Definition.numbers])
    cases upper with
    | none =>
      obtain ⟨number, tokens, rfl, hnumber, h⟩ := List.map_eq_cons_iff.mp h
      obtain ⟨slash, tokens, rfl, hs, h⟩ := List.map_eq_cons_iff.mp h
      obtain ⟨number', flag, rfl, hnumber', hflag⟩ := Flag.of_lexemes hlower hapart h
      exact .mk hnamekind hequals (.of_lexeme hvalue hnumber) (.lower (hslash hs) hnumber') hflag
    | some upper =>
      have hupper : upper.isNaN = false := hnumber upper (by simp [Definition.numbers])
      obtain ⟨number, tokens, rfl, hnumber, h⟩ := List.map_eq_cons_iff.mp h
      obtain ⟨slash, tokens, rfl, hs, h⟩ := List.map_eq_cons_iff.mp h
      obtain ⟨number', tokens, rfl, hnumber', h⟩ := List.map_eq_cons_iff.mp h
      obtain ⟨slash', tokens, rfl, hs', h⟩ := List.map_eq_cons_iff.mp h
      obtain ⟨number'', flag, rfl, hnumber'', hflag⟩ := Flag.of_lexemes hupper hapart h
      exact .mk hnamekind hequals (.of_lexeme hvalue hnumber)
        (.both (hslash hs) (.of_lexeme hlower hnumber') (hslash hs') hnumber'') hflag

theorem BlockEnd.of_lexemes {x : Leaf} (h : tokens.map Token.lexeme = x.closeLexemes) :
    BlockEnd tokens x.label := by
  unfold Leaf.closeLexemes at h
  cases hlabel : x.label with
  | none =>
    rw [hlabel] at h
    obtain ⟨brace, tokens, rfl, hbrace, h⟩ := List.map_eq_cons_iff.mp h
    obtain rfl := List.map_eq_nil_iff.mp h
    exact .bare (Prod.mk.inj hbrace).1
  | some text =>
    rw [hlabel] at h
    obtain ⟨colon, tokens, rfl, hcolon, h⟩ := List.map_eq_cons_iff.mp h
    obtain ⟨label, tokens, rfl, hlexeme, h⟩ := List.map_eq_cons_iff.mp h
    obtain ⟨brace, tokens, rfl, hbrace, h⟩ := List.map_eq_cons_iff.mp h
    obtain rfl := List.map_eq_nil_iff.mp h
    obtain ⟨hkind, rfl⟩ := Prod.mk.inj hlexeme
    exact .label (Prod.mk.inj hcolon).1 hkind (Prod.mk.inj hbrace).1

theorem BlockBody.of_lexemes {x : Leaf} {ds : List Definition} (hne : ds ≠ [])
    (hnumber : ∀ d ∈ ds, ∀ y ∈ d.numbers, y.isNaN = false) (hapart : ∀ d ∈ ds, d.FlagApart)
    (h : tokens.map Token.lexeme = Leaf.definitionLexemes decimals ds ++ x.closeLexemes) :
    BlockBody tokens (ds.map (Definition.reread decimals)) x.label := by
  induction ds generalizing tokens with
  | nil => exact absurd rfl hne
  | cons d ds ih =>
    rw [List.forall_mem_cons] at hnumber hapart
    cases ds with
    | nil =>
      obtain ⟨taken, close, rfl, htaken, hclose⟩ := List.map_eq_append_iff.mp h
      exact .last (.of_lexemes hnumber.1 hapart.1 htaken) (.of_lexemes hclose)
    | cons d' ds =>
      rw [Leaf.definitionLexemes, List.append_assoc, List.cons_append] at h
      obtain ⟨taken, tokens, rfl, htaken, h⟩ := List.map_eq_append_iff.mp h
      obtain ⟨comma, tokens, rfl, hcomma, h⟩ := List.map_eq_cons_iff.mp h
      exact .cons (.of_lexemes hnumber.1 hapart.1 htaken) (Prod.mk.inj hcomma).1
        (ih (List.cons_ne_nil _ _) hnumber.2 hapart.2 h)

/-- The lexemes of an element whose marks stand apart derive it with its numbers read back. -/
theorem DerivesNode.of_leaf_lexemes {x : Leaf} (hne : x.definitions ≠ []) (hx : x.Writable)
    (hapart : ∀ d ∈ x.definitions, d.FlagApart)
    (h : tokens.map Token.lexeme = x.lexemes decimals) :
    DerivesNode tokens (.leaf (x.reread decimals)) := by
  obtain ⟨symbol, tokens, rfl, hsymbol, h⟩ := List.map_eq_cons_iff.mp h
  obtain ⟨brace, tokens, rfl, hbrace, h⟩ := List.map_eq_cons_iff.mp h
  obtain ⟨hkind, htext⟩ := Prod.mk.inj hsymbol
  have hknown : ElementKind.ofSymbol? symbol.text = some x.kind := by
    rw [htext, ElementKind.ofSymbol?_symbol]
  exact .element hkind hknown
    (.present (Prod.mk.inj hbrace).1 (.of_lexemes hne hx.number hapart h))

/-- What a number or an identifier of the grammar is. -/
def Readable (token : Token) : Prop :=
  (token.kind = .number → ∃ value, Numeral token value) ∧
    (token.kind = .identifier → token.text = "F" ∨
      ∃ kind : ElementKind, token.text ∈ kind.parameters.map ParameterDefinition.name)

theorem readable_of_kind {token : Token} {kind : TokenKind} (h : token.kind = kind)
    (hnumber : kind ≠ .number) (hidentifier : kind ≠ .identifier) : Readable token :=
  ⟨fun hkind => absurd (h.symm.trans hkind) hnumber,
    fun hkind => absurd (h.symm.trans hkind) hidentifier⟩

theorem Numeral.readable {token : Token} {value : Number} (h : Numeral token value) :
    Readable token := by
  refine ⟨fun _ => ⟨value, h⟩, fun hkind => ?_⟩
  cases h.1.symm.trans hkind

theorem Limits.readable {lower upper : Option Number} (h : Limits tokens lower upper) :
    ∀ token ∈ tokens, Readable token := by
  have hmark {slash : Token} (hslash : slash.kind = .slash) : Readable slash :=
    readable_of_kind hslash (by decide) (by decide)
  cases h with
  | none => simp
  | lower hslash hnumber => simpa using ⟨hmark hslash, hnumber.readable⟩
  | both hslash hlower hslash' hupper =>
    simpa using ⟨hmark hslash, hlower.readable, hmark hslash', hupper.readable⟩
  | upper hslash hslash' hnumber => simpa using ⟨hmark hslash, hmark hslash', hnumber.readable⟩

theorem Flag.readable {fixed : Bool} (h : Flag tokens fixed) :
    ∀ token ∈ tokens, Readable token := by
  cases h with
  | absent => simp
  | present hkind htext =>
    refine List.forall_mem_singleton.mpr ⟨fun hnumber => ?_, fun _ => Or.inl htext⟩
    cases hkind.symm.trans hnumber

theorem Defines.readable {d : Definition} {kind : ElementKind}
    (hname : d.name ∈ kind.parameters.map ParameterDefinition.name) (h : Defines tokens d) :
    ∀ token ∈ tokens, Readable token := by
  cases h with
  | mk hkind hequals hnumber hlimits hflag =>
    have hnameToken := hname
    rw [List.forall_mem_cons, List.forall_mem_cons, List.forall_mem_cons, List.forall_mem_append]
    refine ⟨⟨fun h => ?_, fun _ => Or.inr ⟨kind, hnameToken⟩⟩,
      readable_of_kind hequals (by decide) (by decide), hnumber.readable, hlimits.readable,
      hflag.readable⟩
    cases hkind.symm.trans h

theorem BlockEnd.readable {label : Option String} (h : BlockEnd tokens label) :
    ∀ token ∈ tokens, Readable token := by
  cases h with
  | bare hbrace => simpa using readable_of_kind hbrace (by decide) (by decide)
  | label hcolon hlabel hbrace =>
    simpa using ⟨readable_of_kind hcolon (by decide) (by decide),
      readable_of_kind hlabel (by decide) (by decide),
      readable_of_kind hbrace (by decide) (by decide)⟩

theorem BlockBody.readable {ds : List Definition} {label : Option String} {kind : ElementKind}
    (hname : ∀ d ∈ ds, d.name ∈ kind.parameters.map ParameterDefinition.name)
    (h : BlockBody tokens ds label) : ∀ token ∈ tokens, Readable token := by
  induction h with
  | last hdefinition hclose =>
    rw [List.forall_mem_append]
    exact ⟨hdefinition.readable (hname _ List.mem_cons_self), hclose.readable⟩
  | cons hdefinition hcomma hrest ih =>
    rw [List.forall_mem_cons] at hname
    rw [List.forall_mem_append, List.forall_mem_cons]
    exact ⟨hdefinition.readable hname.1, readable_of_kind hcomma (by decide) (by decide),
      ih hname.2⟩

theorem Block.readable {x : Leaf} (hx : x.Valid) (h : Block tokens x.definitions x.label) :
    ∀ token ∈ tokens, Readable token := by
  obtain ⟨kind, definitions, label⟩ := x
  cases h with
  | absent => simp
  | present hbrace hbody =>
    rw [List.forall_mem_cons]
    exact ⟨readable_of_kind hbrace (by decide) (by decide), hbody.readable hx.names⟩

theorem readable_brackets {opening closing : Token} {kind : ConnectionKind}
    (hopening : opening.kind = (bracketKinds kind).1)
    (hclosing : closing.kind = (bracketKinds kind).2) : Readable opening ∧ Readable closing := by
  cases kind <;> exact ⟨readable_of_kind hopening (by decide) (by decide),
    readable_of_kind hclosing (by decide) (by decide)⟩

mutual

theorem DerivesNode.readable {tokens : List Token} {node : Node Leaf} (h : DerivesNode tokens node)
    (hvalid : ∀ x ∈ node.leaves, x.Valid) : ∀ token ∈ tokens, Readable token := by
  cases h with
  | element hsymbol hkind hblock =>
    rw [List.forall_mem_cons]
    exact ⟨readable_of_kind hsymbol (by decide) (by decide),
      hblock.readable (hvalid _ (List.mem_singleton.mpr rfl))⟩
  | connection hopening hinner hcount hclosing =>
    obtain ⟨hopen, hclose⟩ := readable_brackets hopening hclosing
    rw [List.forall_mem_cons, List.forall_mem_append, List.forall_mem_singleton]
    exact ⟨hopen, hinner.readable (valid_branch.mp hvalid), hclose⟩

/-- Every number and every identifier among the tokens of valid nodes is what it is to be. -/
theorem DerivesNodes.readable {tokens : List Token} {nodes : List (Node Leaf)}
    (h : DerivesNodes tokens nodes) (hvalid : Valid nodes) : ∀ token ∈ tokens, Readable token := by
  cases h with
  | nil => simp
  | cons hnode hrest =>
    rw [List.forall_mem_append]
    obtain ⟨hfirst, hothers⟩ := valid_cons.mp hvalid
    exact ⟨hnode.readable hfirst, hrest.readable hothers⟩

end

end Grammar

end CircuitCode
