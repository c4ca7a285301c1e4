import CircuitCode.Proofs.Parsing.Machine

/-!
# The grammar is unambiguous

A list of tokens derives at most one list of nodes (`DerivesNodes.unique`). Each part of the grammar
can be cancelled from the front of a list of tokens: what it stands for and where it ends are
determined, provided that what follows does not continue it.
-/

namespace CircuitCode

namespace Grammar

open TokenReader

section Parts

variable {tokens tokens' rest rest' : List Token}

theorem Numeral.unique {token : Token} {value value' : Number} (h : Numeral token value)
    (h' : Numeral token value') : value = value' :=
  Option.some.inj (h.2.symm.trans h'.2)

/-- Of two different forms of limits, one has a slash where the other has a number or is at its
    end. -/
theorem Limits.append_inj {lower upper lower' upper' : Option Number}
    (h : Limits tokens lower upper) (h' : Limits tokens' lower' upper')
    (happend : tokens ++ rest = tokens' ++ rest') (hrest : rest.head?.any isSlash = false)
    (hrest' : rest'.head?.any isSlash = false) :
    lower = lower' ∧ upper = upper' ∧ rest = rest' := by
  have hslash {slash : Token} (h : slash.kind = .slash) (more : List Token) :
      (slash :: more).head?.any isSlash = true := isSlash_eq_true_iff.mpr h
  cases h <;> cases h' <;>
    simp only [List.cons_append, List.nil_append, List.cons.injEq] at happend <;>
    grind [Numeral]

theorem Flag.append_inj {fixed fixed' : Bool} (h : Flag tokens fixed) (h' : Flag tokens' fixed')
    (happend : tokens ++ rest = tokens' ++ rest') (hrest : rest.head?.any isFixedFlag = false)
    (hrest' : rest'.head?.any isFixedFlag = false) : fixed = fixed' ∧ rest = rest' := by
  have hflag {flag : Token} (hkind : flag.kind = .identifier) (htext : flag.text = "F")
      (more : List Token) : (flag :: more).head?.any isFixedFlag = true := by
    simp [isFixedFlag, hkind, htext]
  cases h with
  | absent =>
    cases h' with
    | absent => exact ⟨rfl, happend⟩
    | present hkind htext =>
      rw [List.nil_append] at happend
      rw [happend, List.singleton_append, hflag hkind htext] at hrest
      cases hrest
  | present hkind htext =>
    cases h' with
    | absent =>
      rw [List.nil_append] at happend
      rw [← happend, List.singleton_append, hflag hkind htext] at hrest'
      cases hrest'
    | present => exact ⟨rfl, (List.cons.inj happend).2⟩

theorem Defines.append_inj {d d' : Definition} (h : Defines tokens d) (h' : Defines tokens' d')
    (happend : tokens ++ rest = tokens' ++ rest') (hrest : EndsDefinition rest)
    (hrest' : EndsDefinition rest') : d = d' ∧ rest = rest' := by
  cases h with
  | mk hname hequals hnumber hlimits hflag =>
    cases h' with
    | mk hname' hequals' hnumber' hlimits' hflag' =>
      simp only [List.cons_append, List.cons.injEq, List.append_assoc] at happend
      obtain ⟨rfl, rfl, rfl, happend⟩ := happend
      obtain rfl := hnumber.unique hnumber'
      obtain ⟨rfl, rfl, happend⟩ := hlimits.append_inj hlimits' happend
        (not_isSlash_of_flag hflag hrest.not_isSlash)
        (not_isSlash_of_flag hflag' hrest'.not_isSlash)
      obtain ⟨rfl, hend⟩ :=
        hflag.append_inj hflag' happend hrest.not_isFixedFlag hrest'.not_isFixedFlag
      exact ⟨rfl, hend⟩

theorem BlockEnd.append_inj {label label' : Option String} (h : BlockEnd tokens label)
    (h' : BlockEnd tokens' label') (happend : tokens ++ rest = tokens' ++ rest') :
    label = label' ∧ rest = rest' := by
  cases h <;> cases h' <;>
    simp only [List.cons_append, List.nil_append, List.cons.injEq] at happend <;> grind

theorem BlockEnd.endsDefinition {label : Option String} (h : BlockEnd tokens label)
    (rest : List Token) : EndsDefinition (tokens ++ rest) := by
  cases h with
  | bare hbrace => exact ⟨_, _, rfl, .inr (.inr hbrace)⟩
  | label hcolon => exact ⟨_, _, rfl, .inr (.inl hcolon)⟩

/-- No comma stands where a block ends. -/
theorem BlockEnd.append_ne_comma {label : Option String} (h : BlockEnd tokens label) {comma : Token}
    (hcomma : comma.kind = .comma) : tokens ++ rest ≠ comma :: rest' := by
  rintro happend
  cases h with
  | bare hbrace =>
    obtain ⟨rfl, -⟩ := List.cons.inj happend
    cases hbrace.symm.trans hcomma
  | label hcolon =>
    obtain ⟨rfl, -⟩ := List.cons.inj happend
    cases hcolon.symm.trans hcomma

theorem endsDefinition_comma {comma : Token} (hcomma : comma.kind = .comma) (rest : List Token) :
    EndsDefinition (comma :: rest) := ⟨comma, rest, rfl, .inl hcomma⟩

theorem BlockBody.append_inj {definitions definitions' : List Definition}
    {label label' : Option String} (h : BlockBody tokens definitions label)
    (h' : BlockBody tokens' definitions' label') (happend : tokens ++ rest = tokens' ++ rest') :
    definitions = definitions' ∧ label = label' ∧ rest = rest' := by
  induction h generalizing tokens' definitions' with
  | last hdefinition hclose =>
    rw [List.append_assoc] at happend
    cases h' with
    | last hdefinition' hclose' =>
      rw [List.append_assoc] at happend
      obtain ⟨rfl, hend⟩ := hdefinition.append_inj hdefinition' happend (hclose.endsDefinition _)
        (hclose'.endsDefinition _)
      obtain ⟨rfl, hrest⟩ := hclose.append_inj hclose' hend
      exact ⟨rfl, rfl, hrest⟩
    | cons hdefinition' hcomma' =>
      rw [List.append_assoc, List.cons_append] at happend
      obtain ⟨-, hend⟩ := hdefinition.append_inj hdefinition' happend (hclose.endsDefinition _)
        (endsDefinition_comma hcomma' _)
      exact absurd hend (hclose.append_ne_comma hcomma')
  | cons hdefinition hcomma _ ih =>
    rw [List.append_assoc, List.cons_append] at happend
    cases h' with
    | last hdefinition' hclose' =>
      rw [List.append_assoc] at happend
      obtain ⟨-, hend⟩ := hdefinition.append_inj hdefinition' happend
        (endsDefinition_comma hcomma _) (hclose'.endsDefinition _)
      exact absurd hend.symm (hclose'.append_ne_comma hcomma)
    | cons hdefinition' hcomma' hrest' =>
      rw [List.append_assoc, List.cons_append] at happend
      obtain ⟨rfl, hend⟩ := hdefinition.append_inj hdefinition' happend
        (endsDefinition_comma hcomma _) (endsDefinition_comma hcomma' _)
      obtain ⟨rfl, rfl, hrest⟩ := ih hrest' (List.cons.inj hend).2
      exact ⟨rfl, rfl, hrest⟩

theorem Block.append_inj {definitions definitions' : List Definition} {label label' : Option String}
    (h : Block tokens definitions label) (h' : Block tokens' definitions' label')
    (happend : tokens ++ rest = tokens' ++ rest') (hrest : rest.head?.any isOpenBrace = false)
    (hrest' : rest'.head?.any isOpenBrace = false) :
    definitions = definitions' ∧ label = label' ∧ rest = rest' := by
  have hopen {brace : Token} (h : brace.kind = .openBrace) (more : List Token) :
      (brace :: more).head?.any isOpenBrace = true := isOpenBrace_eq_true_iff.mpr h
  cases h with
  | absent =>
    cases h' with
    | absent => exact ⟨rfl, rfl, happend⟩
    | present hbrace =>
      rw [List.nil_append] at happend
      rw [happend, List.cons_append, hopen hbrace] at hrest
      cases hrest
  | present hbrace hbody =>
    cases h' with
    | absent =>
      rw [List.nil_append] at happend
      rw [← happend, List.cons_append, hopen hbrace] at hrest'
      cases hrest'
    | present hbrace' hbody' => exact hbody.append_inj hbody' (List.cons.inj happend).2

end Parts

/-- A closing bracket comes next, or the end. -/
def EndsNodes (tokens : List Token) : Prop :=
  ∀ token ∈ tokens.head?, ∃ kind, token.kind = (bracketKinds kind).2

theorem endsNodes_closing {closing : Token} {kind : ConnectionKind}
    (hclosing : closing.kind = (bracketKinds kind).2) (rest : List Token) :
    EndsNodes (closing :: rest) := by
  rintro token ⟨⟩
  exact ⟨kind, hclosing⟩

theorem EndsNodes.not_isOpenBrace {tokens : List Token} (h : EndsNodes tokens) :
    tokens.head?.any isOpenBrace = false := by
  cases tokens with
  | nil => rfl
  | cons token tokens =>
    obtain ⟨kind, hkind⟩ := h token rfl
    simp [isOpenBrace, hkind, bracketKinds_snd_ne_openBrace]

/-- No node starts where nodes end. -/
theorem DerivesNode.not_endsNodes {tokens rest : List Token} {node : Node Leaf}
    (h : DerivesNode tokens node) : ¬ EndsNodes (tokens ++ rest) := by
  intro hends
  cases h with
  | element hsymbol =>
    obtain ⟨kind, hkind⟩ := hends _ rfl
    rw [hsymbol] at hkind
    cases kind <;> cases hkind
  | @connection _ _ _ kind' _ hopening =>
    obtain ⟨kind, hkind⟩ := hends _ rfl
    rw [hopening] at hkind
    cases kind <;> cases kind' <;> cases hkind

theorem bracketKinds_fst_inj {kind kind' : ConnectionKind}
    (h : (bracketKinds kind).1 = (bracketKinds kind').1) : kind = kind' := by
  cases kind <;> cases kind' <;> first | rfl | cases h

theorem symbol_ne_bracketKinds_fst (kind : ConnectionKind) :
    TokenKind.symbol ≠ (bracketKinds kind).1 := by
  cases kind <;> decide

mutual

theorem DerivesNode.append_inj {tokens tokens' rest rest' : List Token} {node node' : Node Leaf}
    (h : DerivesNode tokens node) (h' : DerivesNode tokens' node')
    (happend : tokens ++ rest = tokens' ++ rest') (hrest : rest.head?.any isOpenBrace = false)
    (hrest' : rest'.head?.any isOpenBrace = false) : node = node' ∧ rest = rest' := by
  cases h with
  | element hsymbol hkind hblock =>
    cases h' with
    | element hsymbol' hkind' hblock' =>
      obtain ⟨rfl, hblocks⟩ := List.cons.inj happend
      obtain rfl := Option.some.inj (hkind.symm.trans hkind')
      obtain ⟨rfl, rfl, hend⟩ := hblock.append_inj hblock' hblocks hrest hrest'
      exact ⟨rfl, hend⟩
    | connection hopening' =>
      obtain ⟨rfl, -⟩ := List.cons.inj happend
      exact absurd (hsymbol.symm.trans hopening') (symbol_ne_bracketKinds_fst _)
  | connection hopening hinner hcount hclosing =>
    cases h' with
    | element hsymbol' =>
      obtain ⟨rfl, -⟩ := List.cons.inj happend
      exact absurd (hsymbol'.symm.trans hopening) (symbol_ne_bracketKinds_fst _)
    | connection hopening' hinner' hcount' hclosing' =>
      simp only [List.cons_append, List.cons.injEq, List.append_assoc, List.nil_append] at happend
      obtain ⟨rfl, hinners⟩ := happend
      obtain rfl := bracketKinds_fst_inj (hopening.symm.trans hopening')
      obtain ⟨rfl, hclosings⟩ := hinner.append_inj hinner' hinners (endsNodes_closing hclosing _)
        (endsNodes_closing hclosing' _)
      exact ⟨rfl, (List.cons.inj hclosings).2⟩

/-- What nodes stand for and where they end are determined. -/
theorem DerivesNodes.append_inj {tokens tokens' rest rest' : List Token}
    {nodes nodes' : List (Node Leaf)} (h : DerivesNodes tokens nodes)
    (h' : DerivesNodes tokens' nodes') (happend : tokens ++ rest = tokens' ++ rest')
    (hrest : EndsNodes rest) (hrest' : EndsNodes rest') : nodes = nodes' ∧ rest = rest' := by
  cases h with
  | nil =>
    cases h' with
    | nil => exact ⟨rfl, happend⟩
    | cons hnode' =>
      rw [List.nil_append, List.append_assoc] at happend
      rw [happend] at hrest
      exact absurd hrest hnode'.not_endsNodes
  | cons hnode hnodes =>
    rw [List.append_assoc] at happend
    cases h' with
    | nil =>
      rw [List.nil_append] at happend
      rw [← happend] at hrest'
      exact absurd hrest' hnode.not_endsNodes
    | cons hnode' hnodes' =>
      rw [List.append_assoc] at happend
      obtain ⟨rfl, htail⟩ := hnode.append_inj hnode' happend
        (hnodes.head?_append hrest.not_isOpenBrace) (hnodes'.head?_append hrest'.not_isOpenBrace)
      obtain ⟨rfl, hend⟩ := hnodes.append_inj hnodes' htail hrest hrest'
      exact ⟨rfl, hend⟩

end

/-- Tokens derive at most one list of nodes. -/
theorem DerivesNodes.unique {tokens : List Token} {nodes nodes' : List (Node Leaf)}
    (h : DerivesNodes tokens nodes) (h' : DerivesNodes tokens nodes') : nodes = nodes' := by
  have happend : tokens ++ [] = tokens ++ [] := rfl
  exact (h.append_inj h' happend nofun nofun).1

end Grammar

end CircuitCode
