import CircuitCode.Proofs.Parsing.Machine
import CircuitCode.Proofs.Token.Step

/-!
# Parsing without regard to places

The parser goes by the kinds and the texts of the tokens. Where they stand, and where the text
ends, shows in the position that an error names and in nothing else. Nor does anything count that
comes after a number outside a parameter block, since the parser stops there at the latest
(`parseTokens_of_agree`).

Both runs of a reader go through the same steps, so there is one lemma for each reader, and the
lemma for a composed reader follows from those of its parts with `Alike.bind`. The lexical mode is
carried along because only in a parameter block numbers are read.
-/

namespace CircuitCode

/-- Two results are the same up to what an error says besides its name. -/
inductive SameOutcome {α : Type} (r : α → α → Prop) :
    Except ParseError α → Except ParseError α → Prop where
  | ok {a a' : α} (h : r a a') : SameOutcome r (.ok a) (.ok a')
  | error {e e' : ParseError} (h : e.kindName = e'.kindName) : SameOutcome r (.error e) (.error e')

theorem SameOutcome.bind {α β : Type} {r : α → α → Prop} {r' : β → β → Prop}
    {x x' : Except ParseError α} {f f' : α → Except ParseError β} (h : SameOutcome r x x')
    (hnext : ∀ a a', r a a' → SameOutcome r' (f a) (f' a')) :
    SameOutcome r' (x >>= f) (x' >>= f') := by
  cases h with
  | ok h => exact hnext _ _ h
  | error h => exact .error h

theorem SameOutcome.mono {α : Type} {r r' : α → α → Prop} {x x' : Except ParseError α}
    (h : SameOutcome r x x') (hle : ∀ a a', r a a' → r' a a') : SameOutcome r' x x' := by
  cases h with
  | ok h => exact .ok (hle _ _ h)
  | error h => exact .error h

/-- Results are the same if they differ in nothing but what their errors say besides the name. -/
theorem SameOutcome.mapError_eq {α : Type} {x x' : Except ParseError α}
    (h : SameOutcome Eq x x') :
    x.mapError ParseError.kindName = x'.mapError ParseError.kindName := by
  cases h with
  | ok h => rw [h]
  | error h => rw [Except.mapError, Except.mapError, h]

namespace ParseError

theorem kindName_ofToken (token token' : Token) :
    (ofToken token).kindName = (ofToken token').kindName := rfl

theorem kindName_ofConnectionError (position position' : Nat) (cause : ConnectionError) :
    (ofConnectionError position cause).kindName = (ofConnectionError position' cause).kindName := by
  cases cause <;> rfl

theorem kindName_ofElementError (position position' : Nat) (value : Number)
    (cause : ElementError) :
    (ofElementError position value cause).kindName =
      (ofElementError position' value cause).kindName := by
  cases cause with
  | limitOrder name lower upper =>
    simp only [ofElementError]
    split <;> rfl
  | _ => rfl

end ParseError

/-- Tokens that a parser cannot tell apart in a mode: their kinds and texts are equal, up to a
    number outside a parameter block. -/
inductive Agree : LexicalMode → List Token → List Token → Prop where
  | nil {mode : LexicalMode} : Agree mode [] []
  | cons {mode : LexicalMode} {token token' : Token} {tokens tokens' : List Token}
      (hlexeme : token.lexeme = token'.lexeme) (h : Agree (mode.next token.kind) tokens tokens') :
      Agree mode (token :: tokens) (token' :: tokens')
  | number {token token' : Token} {tokens tokens' : List Token} (h : token.kind = .number)
      (h' : token'.kind = .number) : Agree .outside (token :: tokens) (token' :: tokens')

theorem agree_of_lexemes {mode : LexicalMode} {tokens tokens' : List Token}
    (h : tokens.map Token.lexeme = tokens'.map Token.lexeme) : Agree mode tokens tokens' := by
  induction tokens generalizing mode tokens' with
  | nil =>
    rw [List.map_nil, eq_comm, List.map_eq_nil_iff] at h
    rw [h]
    exact .nil
  | cons token tokens ih =>
    obtain ⟨token', tokens', rfl, hlexeme, htokens⟩ := List.map_eq_cons_iff.mp h.symm
    exact .cons hlexeme.symm (ih htokens.symm)

theorem Token.kind_eq_of_lexeme {token token' : Token} (h : token.lexeme = token'.lexeme) :
    token.kind = token'.kind := congrArg Prod.fst h

theorem Token.text_eq_of_lexeme {token token' : Token} (h : token.lexeme = token'.lexeme) :
    token.text = token'.text := congrArg Prod.snd h

/-- Whether labels are trimmed can be told from the tokens without their places. -/
theorem Grammar.LabelsTrimmed.of_lexemes {tokens tokens' : List Token} (h : LabelsTrimmed tokens)
    (hlexemes : tokens.map Token.lexeme = tokens'.map Token.lexeme) : LabelsTrimmed tokens' := by
  intro token htoken
  have hmem : token.lexeme ∈ tokens.map Token.lexeme := by
    rw [hlexemes]
    exact List.mem_map_of_mem htoken
  obtain ⟨token', htoken', hlexeme⟩ := List.mem_map.mp hmem
  rw [← Token.kind_eq_of_lexeme hlexeme, ← Token.text_eq_of_lexeme hlexeme]
  exact h token' htoken'

namespace TokenReader

variable {α β : Type} {stop stop' : Nat} {mode : LexicalMode}

/-- From tokens that agree, two readers read values between which `post` holds, and leave tokens
    that agree in the mode that it names; or both fail in the same way. -/
def Alike (mode : LexicalMode) (post : α → α → LexicalMode → Prop)
    (reader reader' : TokenReader α) : Prop :=
  ∀ tokens tokens', Agree mode tokens tokens' →
    SameOutcome
      (fun read read' => ∃ mode', post read.1 read'.1 mode' ∧ Agree mode' read.2 read'.2)
      (reader.run tokens) (reader'.run tokens')

/-- Both readers read the same and end in a mode. -/
def EqualIn (mode : LexicalMode) (a a' : α) (mode' : LexicalMode) : Prop := a = a' ∧ mode' = mode

variable {post : α → α → LexicalMode → Prop} {post' : β → β → LexicalMode → Prop}

theorem alike_pure {a a' : α} (h : post a a' mode) : Alike mode post (pure a) (pure a') :=
  fun _ _ hagree => .ok ⟨mode, h, hagree⟩

theorem alike_throw {e e' : ParseError} (h : e.kindName = e'.kindName) :
    Alike mode post (throw e) (throw e') := fun _ _ _ => .error h

theorem Alike.bind {reader reader' : TokenReader α} {next next' : α → TokenReader β}
    (h : Alike mode post reader reader')
    (hnext : ∀ a a' mode', post a a' mode' → Alike mode' post' (next a) (next' a')) :
    Alike mode post' (reader >>= next) (reader' >>= next') := by
  intro tokens tokens' hagree
  rw [StateT.run_bind, StateT.run_bind]
  refine (h tokens tokens' hagree).bind ?_
  rintro ⟨a, rest⟩ ⟨a', rest'⟩ ⟨mode', hpost, hrest⟩
  exact hnext a a' mode' hpost rest rest' hrest

theorem Alike.mono {reader reader' : TokenReader α} {weaker : α → α → LexicalMode → Prop}
    (h : Alike mode post reader reader')
    (hpost : ∀ a a' mode', post a a' mode' → weaker a a' mode') :
    Alike mode weaker reader reader' := by
  intro tokens tokens' hagree
  refine (h tokens tokens' hagree).mono ?_
  rintro read read' ⟨mode', h, hrest⟩
  exact ⟨mode', hpost _ _ _ h, hrest⟩

theorem alike_token (hmode : mode ≠ .outside) (context : ParseContext) :
    Alike mode (fun token token' mode' =>
        token.lexeme = token'.lexeme ∧ mode' = mode.next token.kind)
      (token stop context) (token stop' context) := by
  intro tokens tokens' hagree
  cases hagree with
  | nil => exact .error rfl
  | cons hlexeme h => exact .ok ⟨_, ⟨hlexeme, rfl⟩, h⟩
  | number => exact absurd rfl hmode

theorem alike_ofKind (hmode : mode ≠ .outside) (kind : TokenKind) (context : ParseContext) :
    Alike mode (fun token token' mode' =>
        token.lexeme = token'.lexeme ∧ mode' = mode.next kind)
      (ofKind stop kind context) (ofKind stop' kind context) := by
  refine (alike_token hmode context).bind ?_
  rintro token token' mode' ⟨hlexeme, rfl⟩
  have hkind := Token.kind_eq_of_lexeme hlexeme
  rw [← hkind]
  split
  · next heq => exact alike_pure ⟨hlexeme, by rw [heq]⟩
  · exact alike_throw (ParseError.kindName_ofToken _ _)

section Tests

variable {test : Token → Bool} {kind : TokenKind}
  (hlexeme : ∀ token token', token.lexeme = token'.lexeme → test token = test token')
  (hkind : ∀ token, test token = true → token.kind = kind) (hnumber : kind ≠ .number)

include hlexeme hkind hnumber

theorem any_head?_of_agree {tokens tokens' : List Token} (h : Agree mode tokens tokens') :
    tokens.head?.any test = tokens'.head?.any test := by
  cases h with
  | nil => rfl
  | cons h => exact hlexeme _ _ h
  | @number token token' _ _ h h' =>
    have hfails {token : Token} (h : token.kind = .number) : test token = false := by
      rw [Bool.eq_false_iff]
      intro htest
      exact hnumber ((hkind token htest).symm.trans h)
    rw [List.head?_cons, List.head?_cons, Option.any_some, Option.any_some, hfails h, hfails h']

theorem alike_nextIs : Alike mode (EqualIn mode) (nextIs test) (nextIs test) :=
  fun _ _ hagree =>
    .ok ⟨mode, ⟨any_head?_of_agree hlexeme hkind hnumber hagree, rfl⟩, hagree⟩

theorem alike_takeIf :
    Alike mode (fun taken taken' mode' =>
        taken = taken' ∧ mode' = if taken then mode.next kind else mode)
      (takeIf test) (takeIf test) := by
  intro tokens tokens' hagree
  have hhead := any_head?_of_agree hlexeme hkind hnumber hagree
  refine .ok ⟨_, ⟨hhead, rfl⟩, ?_⟩
  dsimp only
  rw [← hhead]
  by_cases htest : tokens.head?.any test = true
  · rw [if_pos htest, if_pos htest, if_pos htest]
    cases hagree with
    | nil => cases htest
    | cons hlexeme h => exact hkind _ htest ▸ h
    | number h => exact absurd ((hkind _ htest).symm.trans h) hnumber
  · rw [if_neg htest, if_neg htest, if_neg htest]
    exact hagree

end Tests

theorem isSlash_of_lexeme (token token' : Token) (h : token.lexeme = token'.lexeme) :
    isSlash token = isSlash token' := by
  rw [isSlash, isSlash, Token.kind_eq_of_lexeme h]

theorem isOpenBrace_of_lexeme (token token' : Token) (h : token.lexeme = token'.lexeme) :
    isOpenBrace token = isOpenBrace token' := by
  rw [isOpenBrace, isOpenBrace, Token.kind_eq_of_lexeme h]

theorem isFixedFlag_of_lexeme (token token' : Token) (h : token.lexeme = token'.lexeme) :
    isFixedFlag token = isFixedFlag token' := by
  rw [isFixedFlag, isFixedFlag, Token.kind_eq_of_lexeme h, Token.text_eq_of_lexeme h]

theorem kind_of_isFixedFlag (token : Token) (h : isFixedFlag token = true) :
    token.kind = .identifier := by
  rw [isFixedFlag, Bool.and_eq_true] at h
  exact beq_iff_eq.mp h.1

theorem alike_number : Alike .block (EqualIn .block) (number stop) (number stop') := by
  intro tokens tokens' hagree
  cases hagree with
  | nil => exact .error rfl
  | @cons _ token token' rest rest' hlexeme h =>
    have hkind := Token.kind_eq_of_lexeme hlexeme
    have htext := Token.text_eq_of_lexeme hlexeme
    simp only [number, StateT.run, ← hkind, ← htext]
    split
    · next hvalue =>
      have hnumber : token.kind = .number := by
        by_contra hne
        rw [if_neg hne] at hvalue
        cases hvalue
      rw [hnumber] at h
      exact .ok ⟨.block, ⟨rfl, rfl⟩, h⟩
    · exact .error rfl

/-- A slash or a name does not lead out of a block. -/
theorem alike_takeIf_block {test : Token → Bool} {kind : TokenKind}
    (hlexeme : ∀ token token', token.lexeme = token'.lexeme → test token = test token')
    (hkind : ∀ token, test token = true → token.kind = kind) (hnumber : kind ≠ .number)
    (hblock : LexicalMode.block.next kind = .block) :
    Alike .block (EqualIn .block) (takeIf test) (takeIf test) := by
  refine (alike_takeIf hlexeme hkind hnumber).mono ?_
  rintro taken taken' mode' ⟨rfl, rfl⟩
  exact ⟨rfl, by rw [hblock, ite_self]⟩

theorem alike_takeIf_isSlash : Alike .block (EqualIn .block) (takeIf isSlash) (takeIf isSlash) :=
  alike_takeIf_block isSlash_of_lexeme (fun _ => isSlash_eq_true_iff.mp) (by decide) rfl

variable {definition : ParameterDefinition}

theorem alike_lowerLimit :
    Alike .block (EqualIn .block) (lowerLimit stop definition) (lowerLimit stop' definition) := by
  refine (alike_nextIs isSlash_of_lexeme (fun _ => isSlash_eq_true_iff.mp) (by decide)).bind ?_
  rintro slash slash' mode' ⟨rfl, rfl⟩
  split
  · exact alike_pure ⟨rfl, rfl⟩
  · exact alike_number

theorem alike_upperLimit :
    Alike .block (EqualIn .block) (upperLimit stop definition) (upperLimit stop' definition) := by
  refine alike_takeIf_isSlash.bind ?_
  rintro slash slash' mode' ⟨rfl, rfl⟩
  split
  · exact alike_number
  · exact alike_pure ⟨rfl, rfl⟩

theorem alike_limits :
    Alike .block (EqualIn .block) (limits stop definition) (limits stop' definition) := by
  refine alike_takeIf_isSlash.bind ?_
  rintro slash slash' mode' ⟨rfl, rfl⟩
  split
  · refine alike_lowerLimit.bind ?_
    rintro lower lower' mode' ⟨rfl, rfl⟩
    refine alike_upperLimit.bind ?_
    rintro upper upper' mode' ⟨rfl, rfl⟩
    exact alike_pure ⟨rfl, rfl⟩
  · exact alike_pure ⟨rfl, rfl⟩

theorem alike_name :
    Alike .block (fun name name' mode' => name.lexeme = name'.lexeme ∧ mode' = .block)
      (name stop) (name stop') := by
  refine (alike_token (by decide) _).bind ?_
  rintro name name' mode' ⟨hlexeme, rfl⟩
  rw [← Token.kind_eq_of_lexeme hlexeme]
  split
  · next hkind => exact alike_pure ⟨hlexeme, by rw [hkind]; rfl⟩
  · exact alike_throw rfl
  · exact alike_throw (ParseError.kindName_ofToken _ _)

theorem alike_assignment (element : Element) (position position' : Nat) :
    Alike .block (EqualIn .block) (assignment stop element definition position)
      (assignment stop' element definition position') := by
  refine (alike_ofKind (by decide) .equals _).bind ?_
  rintro - - mode' ⟨-, rfl⟩
  refine alike_number.bind ?_
  rintro value value' mode' ⟨rfl, rfl⟩
  refine alike_limits.bind ?_
  rintro ⟨lower, upper⟩ limits' mode' ⟨rfl, rfl⟩
  refine (alike_takeIf_block isFixedFlag_of_lexeme kind_of_isFixedFlag (by decide) rfl).bind ?_
  rintro fixed fixed' mode' ⟨rfl, rfl⟩
  split
  · exact alike_pure ⟨rfl, rfl⟩
  · exact alike_throw (ParseError.kindName_ofElementError _ _ _ _)

theorem alike_definition (element : Element) (defined : List String) {name name' : Token}
    (hlexeme : name.lexeme = name'.lexeme) :
    Alike .block (EqualIn .block) (TokenReader.definition stop element defined name)
      (TokenReader.definition stop' element defined name') := by
  unfold TokenReader.definition
  rw [← Token.text_eq_of_lexeme hlexeme]
  split
  · exact alike_throw rfl
  · split
    · exact alike_throw rfl
    · exact alike_assignment element _ _

theorem alike_label (element : Element) :
    Alike .label (EqualIn .outside) (label stop element) (label stop' element) := by
  refine (alike_ofKind (by decide) .label _).bind ?_
  rintro text text' mode' ⟨hlexeme, rfl⟩
  rw [← Token.text_eq_of_lexeme hlexeme]
  split
  · exact alike_throw (ParseError.kindName_ofToken _ _)
  · refine (alike_ofKind (by decide) .closeBrace _).bind ?_
    rintro - - mode' ⟨-, rfl⟩
    exact alike_pure ⟨rfl, rfl⟩

theorem alike_block (element : Element) (defined : List String) (remaining : Nat) :
    Alike .block (EqualIn .outside) (block stop element defined remaining)
      (block stop' element defined remaining) := by
  induction remaining generalizing element defined with
  | zero =>
    unfold block
    exact alike_name.bind fun _ _ _ _ => alike_throw rfl
  | succ remaining ih =>
    unfold block
    refine alike_name.bind ?_
    rintro name name' mode' ⟨hlexeme, rfl⟩
    refine (alike_definition element defined hlexeme).bind ?_
    rintro element element' mode' ⟨rfl, rfl⟩
    refine (alike_token (by decide) _).bind ?_
    rintro separator separator' mode' ⟨hseparator, rfl⟩
    rw [← Token.kind_eq_of_lexeme hseparator, ← Token.text_eq_of_lexeme hlexeme]
    split
    · next hkind => exact hkind ▸ ih _ _
    · next hkind => exact alike_pure ⟨rfl, by rw [hkind]; rfl⟩
    · next hkind => exact hkind ▸ alike_label _
    · exact alike_throw (ParseError.kindName_ofToken _ _)

/-- The same element is read after a symbol, if both runs come to the end of it. -/
theorem alike_element {symbol symbol' : Token} (hlexeme : symbol.lexeme = symbol'.lexeme) :
    Alike .outside (EqualIn .outside) (element stop symbol) (element stop' symbol') := by
  unfold element
  rw [← Token.text_eq_of_lexeme hlexeme]
  split
  · exact alike_throw rfl
  · refine (alike_takeIf isOpenBrace_of_lexeme (fun _ => isOpenBrace_eq_true_iff.mp)
      (by decide)).bind ?_
    rintro brace brace' mode' ⟨rfl, rfl⟩
    split
    · exact alike_block _ _ _
    · exact alike_pure ⟨rfl, rfl⟩

end TokenReader

/-- Items that differ in the positions of brackets only. -/
inductive Item.Alike : Item → Item → Prop where
  | element (e : Element) : Alike (.element e) (.element e)
  | opening (kind : ConnectionKind) (position position' : Nat) :
      Alike (.opening kind position) (.opening kind position')
  | closing (kind : ConnectionKind) (position position' : Nat) :
      Alike (.closing kind position) (.closing kind position')

/-- Open connections that differ in the positions of their brackets only. -/
structure OpenConnection.Alike (inner inner' : OpenConnection) : Prop where
  kind : inner.kind = inner'.kind
  before : inner.before = inner'.before

/-- Items that are alike and end in the same way. -/
structure Items.Alike (read read' : Items) : Prop where
  items : List.Forall₂ Item.Alike read.items read'.items
  failure : read.failure.map ParseError.kindName = read'.failure.map ParseError.kindName

namespace Items

open Grammar

variable {stop stop' : Nat}

theorem Alike.cons {item item' : Item} {items items' : Items} (h : item.Alike item')
    (hitems : items.Alike items') : (Items.cons item items).Alike (Items.cons item' items') :=
  ⟨.cons h hitems.items, hitems.failure⟩

theorem alike_fail {e e' : ParseError} (h : e.kindName = e'.kindName) : (fail e).Alike (fail e') :=
  ⟨.nil, congrArg some h⟩

theorem ofTokens_symbol_error {symbol : Token} {e : ParseError} {tokens : List Token}
    (hsymbol : symbol.kind = .symbol)
    (he : (TokenReader.element stop symbol).run tokens = .error e) :
    ofTokens stop (symbol :: tokens) = fail e := by
  rw [ofTokens]
  simp only [hsymbol]
  split
  · next heq => cases he.symm.trans heq
  · next heq =>
    cases he.symm.trans heq
    rfl

theorem ofTokens_other {token : Token} {tokens : List Token} (hsymbol : token.kind ≠ .symbol)
    (hopening : ∀ kind, token.kind ≠ (bracketKinds kind).1)
    (hclosing : ∀ kind, token.kind ≠ (bracketKinds kind).2) :
    ofTokens stop (token :: tokens) = fail (.ofToken token) := by
  have hopenBracket := hopening .series
  have hopenParen := hopening .parallel
  have hcloseBracket := hclosing .series
  have hcloseParen := hclosing .parallel
  simp only [bracketKinds] at hopenBracket hopenParen hcloseBracket hcloseParen
  rw [ofTokens]
  split <;> first | contradiction | rfl

theorem parseFrom_of_fail {outer : List OpenConnection} {nodes : List (Node Element)}
    {e : ParseError} {tokens : List Token} (h : ofTokens stop tokens = fail e) :
    parseFrom stop outer nodes tokens = .error e := by
  unfold parseFrom
  rw [h]
  rfl

/-- The machine fails where it comes to a block that does. -/
theorem parseFrom_of_block_error {outer : List OpenConnection} {nodes : List (Node Element)}
    {e : ParseError} {symbol brace : Token} {tokens : List Token} {kind : ElementKind}
    (hsymbol : symbol.kind = .symbol) (hkind : ElementKind.ofSymbol? symbol.text = some kind)
    (hbrace : brace.kind = .openBrace)
    (h : (TokenReader.block stop (.ofKind kind) [] kind.parameters.length).run tokens = .error e) :
    parseFrom stop outer nodes (symbol :: brace :: tokens) = .error e :=
  parseFrom_of_fail (ofTokens_symbol_error hsymbol
    ((TokenReader.run_element_of_openBrace hkind hbrace).trans h))

theorem next_outside_opening (kind : ConnectionKind) :
    LexicalMode.outside.next (bracketKinds kind).1 = .outside := by
  cases kind <;> rfl

theorem next_outside_closing (kind : ConnectionKind) :
    LexicalMode.outside.next (bracketKinds kind).2 = .outside := by
  cases kind <;> rfl

/-- Tokens that agree make up items that are alike. The induction is on the number of tokens, since
    what follows an element comes after all tokens of its block. -/
theorem ofTokens_of_agree (length : Nat) {tokens tokens' : List Token}
    (hlength : tokens.length ≤ length) (h : Agree .outside tokens tokens') :
    (ofTokens stop tokens).Alike (ofTokens stop' tokens') := by
  induction length generalizing tokens tokens' with
  | zero =>
    obtain rfl : tokens = [] := by simpa using hlength
    cases h
    rw [ofTokens, ofTokens]
    exact ⟨.nil, rfl⟩
  | succ length ih =>
    cases h with
    | nil => exact ih (Nat.zero_le _) .nil
    | @number token token' tokens tokens' hkind hkind' =>
      have hfail {stop : Nat} {token : Token} {tokens : List Token} (h : token.kind = .number) :
          ofTokens stop (token :: tokens) = fail (.ofToken token) := by
        refine ofTokens_other (by simp [h]) ?_ ?_
        all_goals intro kind; cases kind <;> simp [h, bracketKinds]
      rw [hfail hkind, hfail hkind']
      exact alike_fail (ParseError.kindName_ofToken _ _)
    | @cons _ token token' tokens tokens' hlexeme hrest =>
      have hkind := Token.kind_eq_of_lexeme hlexeme
      rw [List.length_cons] at hlength
      by_cases hsymbol : token.kind = .symbol
      · rw [hsymbol] at hrest
        have hread : SameOutcome _ ((TokenReader.element stop token).run tokens)
            ((TokenReader.element stop' token').run tokens') :=
          TokenReader.alike_element hlexeme tokens tokens' hrest
        generalize he : (TokenReader.element stop token).run tokens = read at hread
        generalize he' : (TokenReader.element stop' token').run tokens' = read' at hread
        cases hread with
        | error h =>
          rw [ofTokens_symbol_error hsymbol he, ofTokens_symbol_error (hkind ▸ hsymbol) he']
          exact alike_fail h
        | @ok read read' h =>
          obtain ⟨e, rest⟩ := read
          obtain ⟨e', rest'⟩ := read'
          obtain ⟨mode', ⟨rfl, rfl⟩, hagree⟩ := h
          have hle := (TokenReader.consumes_element stop token tokens e rest he).length_le
          rw [ofTokens_symbol hsymbol he, ofTokens_symbol (hkind ▸ hsymbol) he']
          exact .cons (.element e) (ih (by omega) hagree)
      by_cases hopening : ∃ kind, token.kind = (bracketKinds kind).1
      · obtain ⟨kind, hopening⟩ := hopening
        rw [hopening, next_outside_opening] at hrest
        rw [ofTokens_opening hopening, ofTokens_opening (hkind ▸ hopening)]
        exact .cons (.opening kind _ _) (ih (by omega) hrest)
      by_cases hclosing : ∃ kind, token.kind = (bracketKinds kind).2
      · obtain ⟨kind, hclosing⟩ := hclosing
        rw [hclosing, next_outside_closing] at hrest
        rw [ofTokens_closing hclosing, ofTokens_closing (hkind ▸ hclosing)]
        exact .cons (.closing kind _ _) (ih (by omega) hrest)
      · rw [ofTokens_other hsymbol (not_exists.mp hopening) (not_exists.mp hclosing),
          ofTokens_other (hkind ▸ hsymbol) (hkind ▸ not_exists.mp hopening)
            (hkind ▸ not_exists.mp hclosing)]
        exact alike_fail (ParseError.kindName_ofToken _ _)

/-- Items that are alike are joined to the same nodes, or this fails in the same way. -/
theorem join_of_alike {failure failure' : Option ParseError} {items items' : List Item}
    {outer outer' : List OpenConnection} (nodes : List (Node Element))
    (hfailure : failure.map ParseError.kindName = failure'.map ParseError.kindName)
    (hitems : List.Forall₂ Item.Alike items items')
    (houter : List.Forall₂ OpenConnection.Alike outer outer') :
    SameOutcome Eq (join stop failure outer nodes items)
      (join stop' failure' outer' nodes items') := by
  induction hitems generalizing outer outer' nodes with
  | nil =>
    cases failure with
    | some e =>
      obtain ⟨e', rfl, he⟩ := Option.map_eq_some_iff.mp hfailure.symm
      rw [join, join]
      exact .error he.symm
    | none =>
      rw [Option.map_none, eq_comm, Option.map_eq_none_iff] at hfailure
      subst hfailure
      cases houter with
      | nil =>
        rw [join, join]
        exact .ok rfl
      | cons =>
        rw [join, join]
        exact .error rfl
  | cons hitem hitems ih =>
    cases hitem with
    | element e =>
      rw [join, join]
      exact ih _ houter
    | opening kind position position' =>
      rw [join, join]
      exact ih _ (.cons ⟨rfl, rfl⟩ houter)
    | closing kind position position' =>
      cases houter with
      | nil =>
        rw [join, join]
        exact .error rfl
      | @cons inner inner' outer outer' hinner houter =>
        rw [join, join, ← hinner.kind, ← hinner.before]
        split
        · split
          · exact ih _ houter
          · exact .error (ParseError.kindName_ofConnectionError _ _ _)
        · exact .error rfl

end Items

/-- Tokens that agree make up the same circuit, or fail to do so in the same way. -/
theorem parseTokens_of_agree {stop stop' : Nat} {tokens tokens' : List Token}
    (h : Agree .outside tokens tokens') :
    (parseTokens stop tokens).mapError ParseError.kindName =
      (parseTokens stop' tokens').mapError ParseError.kindName := by
  have halike : (Items.ofTokens stop tokens).Alike (Items.ofTokens stop' tokens') :=
    Items.ofTokens_of_agree _ (Nat.le_refl _) h
  have hnodes : SameOutcome Eq ((Items.ofTokens stop tokens).nodes stop)
      ((Items.ofTokens stop' tokens').nodes stop') :=
    Items.join_of_alike [] halike.failure halike.items .nil
  refine SameOutcome.mapError_eq (hnodes.bind ?_)
  rintro nodes nodes' rfl
  split
  · exact .ok rfl
  · exact .error rfl

/-- A text that falls into tokens is parsed as these are. -/
theorem parse_of_stray {text : String} (h : (tokenize text).stray = none) :
    parse text = parseTokens (byteLength text.toList) (tokenize text).tokens := by
  simp only [parse, Parser.process, h]

end CircuitCode
