import CircuitCode.Proofs.Parsing.Machine
import CircuitCode.Proofs.Token.Cut

/-!
# Where nodes end

After the tokens of nodes the scanner is where it was before them: outside a parameter block. What
follows does not continue the last of these tokens, apart from a lower case letter after a symbol
(`DerivesNodes.closed`). So a text may be cut around nodes.
-/

namespace CircuitCode

theorem LexicalMode.nextAll_append (mode : LexicalMode) (tokens tokens' : List Token) :
    mode.nextAll (tokens ++ tokens') = (mode.nextAll tokens).nextAll tokens' := List.foldl_append

theorem LexicalMode.nextAll_cons (mode : LexicalMode) (token : Token) (tokens : List Token) :
    mode.nextAll (token :: tokens) = (mode.next token.kind).nextAll tokens := rfl

/-- A closing brace, a bracket or another mark is final. -/
theorem Token.final_of_kind {token : Token} {kind : TokenKind} (hkind : token.kind = kind)
    (hmark : kind ≠ .number ∧ kind ≠ .identifier ∧ kind ≠ .label ∧ kind ≠ .symbol) :
    token.Final := by
  subst hkind
  exact ⟨hmark.1, hmark.2.1, hmark.2.2.1, fun hsymbol => absurd hsymbol hmark.2.2.2⟩

namespace Grammar

/-- The scanner is outside a parameter block before and after the tokens, and what follows does not
    continue them. -/
structure Closed (tokens : List Token) : Prop where
  outside : LexicalMode.outside.nextAll tokens = .outside
  final : ∀ token ∈ tokens.getLast?, token.Final

theorem closed_nil : Closed [] := ⟨rfl, nofun⟩

theorem Closed.append {tokens tokens' : List Token} (h : Closed tokens) (h' : Closed tokens') :
    Closed (tokens ++ tokens') where
  outside := by rw [LexicalMode.nextAll_append, h.outside, h'.outside]
  final := by
    intro token htoken
    rw [List.getLast?_append, Option.mem_def, Option.or_eq_some_iff] at htoken
    rcases htoken with htoken | ⟨-, htoken⟩
    · exact h'.final token htoken
    · exact h.final token htoken

/-- A text may be cut behind closed tokens. -/
theorem Closed.cut {cursor : Cursor} {text rest : List Char} {before after : List Token}
    (h : Closed before) (hsplit : cursor.rest = text ++ rest)
    (hscan : scanFrom .outside cursor = ⟨before ++ after, none⟩)
    (hstops : ∀ token ∈ before, token.stop ≤ cursor.position + byteLength text)
    (hstarts : ∀ token ∈ after, cursor.position + byteLength text ≤ token.position) :
    (∀ rest' : List Char, rest'.head?.any Char.isLower = false →
        Scans .outside text rest' (before.map Token.lexeme) .outside) ∧
      ∃ column, scanFrom .outside ⟨rest, cursor.position + byteLength text, column⟩ =
        ⟨after, none⟩ := by
  have hcut : Cut .outside cursor text rest before after :=
    ⟨hsplit, hscan, hstops, hstarts, h.final⟩
  have hscans {rest' : List Char} (hlower : rest'.head?.any Char.isLower = false) :=
    hcut.scans hlower
  have hrest := hcut.exists_scanFrom
  rw [h.outside] at hrest hscans
  exact ⟨fun rest' hlower => hscans hlower, hrest⟩

/-- What follows a text does not change its tokens if these are closed. -/
theorem Closed.scans {cursor : Cursor} {tokens : List Token} (h : Closed tokens)
    (hscan : scanFrom .outside cursor = ⟨tokens, none⟩) (rest : List Char)
    (hlower : rest.head?.any Char.isLower = false) :
    Scans .outside cursor.rest rest (tokens.map Token.lexeme) .outside := by
  have hscans := (Cut.atEnd hscan h.final).scans hlower
  rwa [h.outside] at hscans

theorem closed_opening {opening : Token} {kind : ConnectionKind}
    (hopening : opening.kind = (bracketKinds kind).1) : Closed [opening] where
  outside := by
    rw [LexicalMode.nextAll_cons, hopening]
    cases kind <;> rfl
  final := by
    rintro token ⟨⟩
    refine Token.final_of_kind hopening ?_
    cases kind <;> decide

theorem closed_closing {closing : Token} {kind : ConnectionKind}
    (hclosing : closing.kind = (bracketKinds kind).2) : Closed [closing] where
  outside := by
    rw [LexicalMode.nextAll_cons, hclosing]
    cases kind <;> rfl
  final := by
    rintro token ⟨⟩
    refine Token.final_of_kind hclosing ?_
    cases kind <;> decide

section Blocks

variable {tokens : List Token}

/-- The tokens stay inside a parameter block. -/
theorem nextAll_block (h : ∀ token ∈ tokens, token.kind ≠ .colon ∧ token.kind ≠ .closeBrace) :
    LexicalMode.block.nextAll tokens = .block := by
  induction tokens with
  | nil => rfl
  | cons token tokens ih =>
    obtain ⟨⟨hcolon, hbrace⟩, htokens⟩ := List.forall_mem_cons.mp h
    rw [LexicalMode.nextAll_cons, LexicalMode.next_block hbrace hcolon, ih htokens]

/-- The kinds of the tokens in a definition. -/
def definitionKinds : List TokenKind := [.identifier, .equals, .number, .slash]

/-- The kinds of the tokens in a parameter block after its opening brace. -/
def blockKinds : List TokenKind := definitionKinds ++ [.comma, .colon, .label, .closeBrace]

theorem Defines.kind_mem {d : Definition} (h : Defines tokens d) :
    ∀ token ∈ tokens, token.kind ∈ definitionKinds := by
  cases h with
  | mk hname hequals hnumber hlimits hflag =>
    cases hlimits <;> cases hflag <;> simp_all [Numeral, definitionKinds]

theorem Defines.kind_ne {d : Definition} {kind : TokenKind} (h : Defines tokens d)
    (hkind : kind ∉ definitionKinds) : ∀ token ∈ tokens, token.kind ≠ kind :=
  fun token htoken heq => hkind (heq ▸ h.kind_mem token htoken)

theorem Defines.nextAll {d : Definition} (h : Defines tokens d) :
    LexicalMode.block.nextAll tokens = .block := by
  have hkinds : ∀ kind ∈ definitionKinds, kind ≠ .colon ∧ kind ≠ .closeBrace := by decide
  exact nextAll_block fun token htoken => hkinds token.kind (h.kind_mem token htoken)

theorem BlockEnd.kind_mem {label : Option String} (h : BlockEnd tokens label) :
    ∀ token ∈ tokens, token.kind ∈ blockKinds := by
  cases h with
  | bare hbrace => simp [hbrace, blockKinds]
  | label hcolon hlabel hbrace => simp [hcolon, hlabel, hbrace, blockKinds]

theorem BlockBody.kind_mem {definitions : List Definition} {label : Option String}
    (h : BlockBody tokens definitions label) : ∀ token ∈ tokens, token.kind ∈ blockKinds := by
  have hdefines {tokens : List Token} {d : Definition} (h : Defines tokens d) :
      ∀ token ∈ tokens, token.kind ∈ blockKinds := fun token htoken =>
    List.mem_append_left _ (h.kind_mem token htoken)
  induction h with
  | last hdefinition hclose =>
    exact List.forall_mem_append.mpr ⟨hdefines hdefinition, hclose.kind_mem⟩
  | cons hdefinition hcomma _ ih =>
    refine List.forall_mem_append.mpr ⟨hdefines hdefinition, List.forall_mem_cons.mpr ⟨?_, ih⟩⟩
    rw [hcomma]
    decide

/-- A parameter block has no symbol, no bracket and no other block in it. -/
theorem BlockBody.kind_ne {definitions : List Definition} {label : Option String}
    {kind : TokenKind} (h : BlockBody tokens definitions label) (hkind : kind ∉ blockKinds) :
    ∀ token ∈ tokens, token.kind ≠ kind :=
  fun token htoken heq => hkind (heq ▸ h.kind_mem token htoken)

theorem BlockEnd.closes {label : Option String} (h : BlockEnd tokens label) :
    LexicalMode.block.nextAll tokens = .outside ∧
      ∃ brace, tokens.getLast? = some brace ∧ brace.kind = .closeBrace := by
  cases h with
  | bare hbrace =>
    refine ⟨?_, _, rfl, hbrace⟩
    rw [LexicalMode.nextAll_cons, hbrace]
    rfl
  | label hcolon hlabel hbrace =>
    refine ⟨?_, _, rfl, hbrace⟩
    simp only [LexicalMode.nextAll_cons, hcolon, hlabel, hbrace]
    rfl

/-- A parameter block ends with its brace. -/
theorem BlockBody.closes {definitions : List Definition} {label : Option String}
    (h : BlockBody tokens definitions label) :
    LexicalMode.block.nextAll tokens = .outside ∧
      ∃ brace, tokens.getLast? = some brace ∧ brace.kind = .closeBrace := by
  induction h with
  | last hdefinition hclose =>
    obtain ⟨houtside, brace, hlast, hbrace⟩ := hclose.closes
    rw [LexicalMode.nextAll_append, hdefinition.nextAll]
    exact ⟨houtside, brace, by rw [List.getLast?_append, hlast]; rfl, hbrace⟩
  | cons hdefinition hcomma _ ih =>
    obtain ⟨houtside, brace, hlast, hbrace⟩ := ih
    rw [LexicalMode.nextAll_append, hdefinition.nextAll, LexicalMode.nextAll_cons, hcomma]
    exact ⟨houtside, brace, by simp [List.getLast?_cons, hlast], hbrace⟩

/-- No kind of elements has the symbol `e` or `E`. -/
theorem closed_element {symbol : Token} {kind : ElementKind} {block : List Token}
    {definitions : List Definition} {label : Option String} (hsymbol : symbol.kind = .symbol)
    (hkind : ElementKind.ofSymbol? symbol.text = some kind)
    (hblock : Block block definitions label) : Closed (symbol :: block) := by
  cases hblock with
  | absent =>
    refine ⟨?_, ?_⟩
    · rw [LexicalMode.nextAll_cons, hsymbol]
      rfl
    · intro token htoken
      obtain rfl : symbol = token := Option.some.inj htoken
      refine ⟨by simp [hsymbol], by simp [hsymbol], by simp [hsymbol], fun _ => ?_⟩
      constructor <;> intro htext <;> rw [htext] at hkind <;> cases hkind
  | present hbrace hbody =>
    obtain ⟨houtside, brace, hlast, hclose⟩ := hbody.closes
    refine ⟨?_, ?_⟩
    · rw [LexicalMode.nextAll_cons, LexicalMode.nextAll_cons, hsymbol, hbrace]
      exact houtside
    · intro token htoken
      rw [List.getLast?_cons_cons, List.getLast?_cons, hlast] at htoken
      cases htoken
      exact Token.final_of_kind hclose (by decide)

end Blocks

mutual

theorem DerivesNode.closed {tokens : List Token} {node : Node Leaf} (h : DerivesNode tokens node) :
    Closed tokens := by
  cases h with
  | element hsymbol hkind hblock => exact closed_element hsymbol hkind hblock
  | connection hopening hinner hcount hclosing =>
    exact (closed_opening hopening).append (hinner.closed.append (closed_closing hclosing))

theorem DerivesNodes.closed {tokens : List Token} {nodes : List (Node Leaf)}
    (h : DerivesNodes tokens nodes) : Closed tokens := by
  cases h with
  | nil => exact closed_nil
  | cons hnode hnodes => exact hnode.closed.append hnodes.closed

end

end Grammar

end CircuitCode
