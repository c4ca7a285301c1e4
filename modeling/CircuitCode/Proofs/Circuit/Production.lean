import CircuitCode.Proofs.Circuit.Parsed
import CircuitCode.Proofs.Element.Reread
import CircuitCode.Proofs.Parsing.Assignment
import CircuitCode.Proofs.Parsing.Closed
import CircuitCode.Proofs.Token.Spaced
import CircuitCode.Proofs.Token.Truncation

/-!
# What may be given for a parameter

A value, limits after slashes and the mark of a fixed parameter, with blanks between them, are
accepted for a parameter or refused for a limit (`upToLimits_of_produces`), and nothing else is
accepted (`produces_of_upToLimits`). The numbers are compared as soon as they are read, so what is
refused for a limit only starts like that.
-/

namespace CircuitCode

open Grammar

/-- What may follow a value. In the `bare` form nothing follows the slash. -/
inductive LimitPieces (number : List Char → Prop) (bare : Prop) : List (List Char) → Prop where
  | none : LimitPieces number bare []
  | bare (h : bare) : LimitPieces number bare [['/']]
  | lower {lower : List Char} (hlower : number lower) : LimitPieces number bare [['/'], lower]
  | both {lower upper : List Char} (hlower : number lower) (hupper : number upper) :
      LimitPieces number bare [['/'], lower, ['/'], upper]
  | upper {upper : List Char} (hupper : number upper) :
      LimitPieces number bare [['/'], ['/'], upper]

/-- The mark of a fixed parameter, which may be missing. -/
inductive FlagPieces : List (List Char) → Prop where
  | absent : FlagPieces []
  | present : FlagPieces [['F']]

/-- What may be given for a parameter: a value, limits and the mark of a fixed parameter. -/
inductive Production (number : List Char → Prop) (bare : Prop) : List (List Char) → Prop where
  | mk {value : List Char} {limits flag : List (List Char)} (hvalue : number value)
      (hlimits : LimitPieces number bare limits) (hflag : FlagPieces flag) :
      Production number bare (value :: (limits ++ flag))

/-- A text may be given for a parameter, with blanks between its tokens. -/
def Produces (number : List Char → Prop) (bare : Prop) (text : List Char) : Prop :=
  ∃ pieces, Production number bare pieces ∧ Spaced pieces text

theorem Produces.mono {number number' : List Char → Prop} {bare bare' : Prop} {text : List Char}
    (h : Produces number bare text) (hnumber : ∀ digits, number digits → number' digits)
    (hbare : bare → bare') : Produces number' bare' text := by
  obtain ⟨pieces, ⟨hvalue, hlimits, hflag⟩, hspaced⟩ := h
  refine ⟨_, .mk (hnumber _ hvalue) ?_ hflag, hspaced⟩
  cases hlimits with
  | none => exact .none
  | bare h => exact .bare (hbare h)
  | lower hlower => exact .lower (hnumber _ hlower)
  | both hlower hupper => exact .both (hnumber _ hlower) (hnumber _ hupper)
  | upper hupper => exact .upper (hnumber _ hupper)

section Tokens

variable {tokens : List Token} {token : Token}

theorem InDefinition.looseNumeral {x : Number} (h : InDefinition token) (hx : Numeral token x) :
    LooseNumeral token.text.toList := by
  obtain ⟨hkind, hliteral⟩ := hx
  obtain ⟨rest, hfound⟩ := h.found
  rw [hkind] at hfound
  exact looseNumeral_of_next? hfound (by rwa [String.ofList_toList])

theorem InDefinition.toList_eq_slash (h : InDefinition token) (hkind : token.kind = .slash) :
    token.text.toList = ['/'] := by
  obtain ⟨rest, hfound⟩ := h.found
  rw [hkind] at hfound
  obtain ⟨c, htext, hc⟩ | ⟨-, hother | hother⟩ := Lexeme.eq_mark_or_unmarked_of_next? hfound
  · have hslash : TokenKind.punctuation? '/' = some .slash := rfl
    rw [htext, TokenKind.punctuation?_inj hc hslash]
  · cases hother
  · cases hother

/-- The texts of a definition's tokens may be given for a parameter. -/
theorem production_of_defines {name equals : Token} {d : Definition}
    (h : Defines (name :: equals :: tokens) d) (htokens : ∀ token ∈ tokens, InDefinition token) :
    Production LooseNumeral False (tokens.map fun token => token.text.toList) := by
  cases h with
  | @mk _ _ _ limits flag _ _ _ _ hname hequals hnumber hlimits hflag =>
    rw [List.forall_mem_cons, List.forall_mem_append] at htokens
    obtain ⟨hvalue, hslots, -⟩ := htokens
    rw [List.map_cons, List.map_append]
    have hlimits' : LimitPieces LooseNumeral False (limits.map fun token => token.text.toList) := by
      cases hlimits with
      | none => exact .none
      | lower hslash hlower =>
        simp only [List.forall_mem_cons] at hslots
        obtain ⟨hs, hl, -⟩ := hslots
        rw [List.map_cons, hs.toList_eq_slash hslash]
        exact .lower (hl.looseNumeral hlower)
      | both hslash hlower hslash' hupper =>
        simp only [List.forall_mem_cons] at hslots
        obtain ⟨hs, hl, hs', hu, -⟩ := hslots
        simp only [List.map_cons, hs.toList_eq_slash hslash, hs'.toList_eq_slash hslash']
        exact .both (hl.looseNumeral hlower) (hu.looseNumeral hupper)
      | upper hslash hslash' hupper =>
        simp only [List.forall_mem_cons] at hslots
        obtain ⟨hs, hs', hu, -⟩ := hslots
        simp only [List.map_cons, hs.toList_eq_slash hslash, hs'.toList_eq_slash hslash']
        exact .upper (hu.looseNumeral hupper)
    refine .mk (hvalue.looseNumeral hnumber) hlimits' ?_
    cases hflag with
    | absent => exact .absent
    | present hkind htext =>
      rw [List.map_singleton, htext]
      exact .present

end Tokens

section Lexemes

variable {bare : Prop} {limits flag pieces : List (List Char)} {text : List Char}

theorem NumeralText.exists_numeral (h : NumeralText text) {token : Token}
    (htoken : token.lexeme = (.number, String.ofList text)) : ∃ x, Numeral token x := by
  obtain ⟨hkind, htext⟩ := Prod.mk.inj htoken
  obtain ⟨x, hx⟩ := h.exists_ofLiteral?
  exact ⟨x, hkind, by rw [htext, hx]⟩

/-- No number. -/
def StartsApart (pieces : List (List Char)) : Prop :=
  ∀ piece ∈ pieces.head?, piece = ['/'] ∨ piece = ['F']

theorem FlagPieces.separate (h : FlagPieces flag) :
    StartsApart flag ∧ ∃ lexemes, Separate flag lexemes ∧
      ∀ tokens : List Token, tokens.map Token.lexeme = lexemes → ∃ fixed, Flag tokens fixed := by
  cases h with
  | absent =>
    refine ⟨nofun, [], .nil, fun tokens htokens => ?_⟩
    obtain rfl := List.map_eq_nil_iff.mp htokens
    exact ⟨false, .absent⟩
  | present =>
    refine ⟨fun piece hpiece => .inr (Option.some.inj hpiece).symm, _, .flag, ?_⟩
    intro tokens htokens
    obtain ⟨token, rest, rfl, htoken, hrest⟩ := List.map_eq_cons_iff.mp htokens
    obtain rfl := List.map_eq_nil_iff.mp hrest
    obtain ⟨hkind, htext⟩ := Prod.mk.inj htoken
    exact ⟨true, .present hkind htext⟩

theorem LimitPieces.separate (h : LimitPieces NumeralText bare limits) (hflag : FlagPieces flag) :
    StartsApart (limits ++ flag) ∧ ∃ lexemes, Separate (limits ++ flag) lexemes ∧
      (¬ bare → ∀ tokens : List Token, tokens.map Token.lexeme = lexemes →
        ∃ slots mark lower upper fixed, tokens = slots ++ mark ∧ Limits slots lower upper ∧
          Flag mark fixed) := by
  obtain ⟨hapart, flagLexemes, hseparate, hmark⟩ := hflag.separate
  have hslash (pieces : List (List Char)) : StartsApart (['/'] :: pieces) :=
    fun piece hpiece => .inl (Option.some.inj hpiece).symm
  cases h with
  | none =>
    refine ⟨hapart, _, hseparate, fun _ tokens htokens => ?_⟩
    obtain ⟨fixed, hfixed⟩ := hmark tokens htokens
    exact ⟨[], tokens, _, _, fixed, rfl, .none, hfixed⟩
  | bare h => exact ⟨hslash _, _, .slash hseparate, absurd h⟩
  | lower hlower =>
    refine ⟨hslash _, _, .slash (.number hlower hapart hseparate), fun _ tokens htokens => ?_⟩
    obtain ⟨slash, tokens, rfl, hs, htokens⟩ := List.map_eq_cons_iff.mp htokens
    obtain ⟨number, tokens, rfl, hnumber, htokens⟩ := List.map_eq_cons_iff.mp htokens
    obtain ⟨x, hx⟩ := hlower.exists_numeral hnumber
    obtain ⟨fixed, hfixed⟩ := hmark tokens htokens
    exact ⟨[slash, number], tokens, _, _, fixed, rfl, .lower (Prod.mk.inj hs).1 hx, hfixed⟩
  | both hlower hupper =>
    refine ⟨hslash _, _, .slash (.number hlower (hslash _)
      (.slash (.number hupper hapart hseparate))), fun _ tokens htokens => ?_⟩
    obtain ⟨slash, tokens, rfl, hs, htokens⟩ := List.map_eq_cons_iff.mp htokens
    obtain ⟨number, tokens, rfl, hnumber, htokens⟩ := List.map_eq_cons_iff.mp htokens
    obtain ⟨slash', tokens, rfl, hs', htokens⟩ := List.map_eq_cons_iff.mp htokens
    obtain ⟨number', tokens, rfl, hnumber', htokens⟩ := List.map_eq_cons_iff.mp htokens
    obtain ⟨x, hx⟩ := hlower.exists_numeral hnumber
    obtain ⟨x', hx'⟩ := hupper.exists_numeral hnumber'
    obtain ⟨fixed, hfixed⟩ := hmark tokens htokens
    exact ⟨[slash, number, slash', number'], tokens, _, _, fixed, rfl,
      .both (Prod.mk.inj hs).1 hx (Prod.mk.inj hs').1 hx', hfixed⟩
  | upper hupper =>
    refine ⟨hslash _, _, .slash (.slash (.number hupper hapart hseparate)),
      fun _ tokens htokens => ?_⟩
    obtain ⟨slash, tokens, rfl, hs, htokens⟩ := List.map_eq_cons_iff.mp htokens
    obtain ⟨slash', tokens, rfl, hs', htokens⟩ := List.map_eq_cons_iff.mp htokens
    obtain ⟨number, tokens, rfl, hnumber, htokens⟩ := List.map_eq_cons_iff.mp htokens
    obtain ⟨x, hx⟩ := hupper.exists_numeral hnumber
    obtain ⟨fixed, hfixed⟩ := hmark tokens htokens
    exact ⟨[slash, slash', number], tokens, _, _, fixed, rfl,
      .upper (Prod.mk.inj hs).1 (Prod.mk.inj hs').1 hx, hfixed⟩

/-- What may be given for a parameter is a definition after a name and an equals sign, unless a
    slash in it is followed by nothing. -/
theorem Production.separate (h : Production NumeralText bare pieces) :
    ∃ lexemes, Separate pieces lexemes ∧
      (¬ bare → ∀ (name equals : Token) (tokens : List Token), name.kind = .identifier →
        equals.kind = .equals → tokens.map Token.lexeme = lexemes →
          ∃ d, Defines (name :: equals :: tokens) d) := by
  obtain ⟨hvalue, hlimits, hflag⟩ := h
  obtain ⟨hapart, lexemes, hseparate, hdefines⟩ := hlimits.separate hflag
  refine ⟨_, .number hvalue hapart hseparate, ?_⟩
  intro hbare name equals tokens hname hequals htokens
  obtain ⟨number, tokens, rfl, hnumber, htokens⟩ := List.map_eq_cons_iff.mp htokens
  obtain ⟨x, hx⟩ := hvalue.exists_numeral hnumber
  obtain ⟨slots, mark, lower, upper, fixed, rfl, hslots, hmark⟩ := hdefines hbare tokens htokens
  exact ⟨_, .mk hname hequals hx hslots hmark⟩

end Lexemes

/-- Pieces before the closing brace are scanned into their tokens. -/
theorem exists_scanFrom_of_separate {pieces : List (List Char)}
    {lexemes : List (TokenKind × String)} {text : List Char} (h : Separate pieces lexemes)
    (hspaced : Spaced pieces text) (hword : ¬ ['f', 'F'] <:+: text) (position column : Nat) :
    ∃ tokens : List Token, tokens.map Token.lexeme = lexemes ++ [(.closeBrace, "\x7d")] ∧
      scanFrom .block ⟨text ++ ['\x7d'], position, column⟩ = ⟨tokens, none⟩ := by
  have hclose : Scans .block ['\x7d'] [] [(.closeBrace, "\x7d")] .outside := .mark (by decide) rfl
  obtain ⟨tokens, after, htokens, hafter, hscan⟩ :=
    (h.scans hspaced hword).append hclose ⟨text ++ ['\x7d'], position, column⟩ (by simp)
  have hend : scanFrom .outside after = ⟨[], none⟩ :=
    scanFrom_of_allBlank (by rw [hafter]; exact .nil)
  rw [hend, List.append_nil] at hscan
  exact ⟨tokens, htokens, hscan⟩

section Start

variable {mode mode' : LexicalMode} {position column : Nat} {text : List Char}
  {tokens : List Token}

/-- At a place and in one mode, a text is scanned into the given tokens whatever follows it, and
    leaves the other mode. -/
def ScansAt (mode : LexicalMode) (position column : Nat) (text : List Char) (tokens : List Token)
    (mode' : LexicalMode) : Prop :=
  ∀ rest, ∃ next : Cursor, next = ⟨rest, position + byteLength text, column + text.length⟩ ∧
    scanFrom mode ⟨text ++ rest, position, column⟩ =
      ⟨tokens ++ (scanFrom mode' next).tokens, (scanFrom mode' next).stray⟩

theorem ScansAt.nil : ScansAt mode position column [] [] mode :=
  fun _ => ⟨_, rfl, rfl⟩

theorem ScansAt.cons {kind : TokenKind} {piece : List Char} (hmode : mode ≠ .label)
    (hne : piece ≠ []) (hhead : piece.head?.any isBlank = false)
    (hnext : ∀ rest, Lexeme.next? mode (piece ++ (text ++ rest)) = some (kind, piece.length))
    (h : ScansAt (mode.next kind) (position + byteLength piece) (column + piece.length) text tokens
      mode') :
    ScansAt mode position column (piece ++ text)
      (⟨kind, .ofList piece, position, column⟩ :: tokens) mode' := by
  intro rest
  obtain ⟨next, hnext', hscan⟩ := h rest
  have hlexes : Lexes mode kind [] piece [] (text ++ rest) :=
    .lexeme hmode .nil hne hhead (hnext rest)
  have hstep : scanStep mode ⟨piece ++ text ++ rest, position, column⟩ =
      .token ⟨kind, .ofList piece, position, column⟩ (mode.next kind)
        ⟨text ++ rest, position + byteLength piece, column + piece.length⟩ := by
    have hrest : (⟨piece ++ text ++ rest, position, column⟩ : Cursor).rest =
        [] ++ (piece ++ ([] ++ (text ++ rest))) := List.append_assoc piece text rest
    have hstep := hlexes.scanStep_eq hrest
    rwa [List.append_nil] at hstep
  refine ⟨next, ?_, ?_⟩
  · rw [hnext', byteLength_append, List.length_append, Nat.add_assoc, Nat.add_assoc]
  · rw [scanFrom_of_token hstep, hscan]
    rfl

/-- The tokens of the rest of a text, if all of it falls into tokens. -/
theorem ScansAt.exists_rest {start text : String} {rest : List Char}
    (h : ScansAt .outside 0 1 start.toList tokens mode)
    (htext : text.toList = start.toList ++ rest) (hstray : (tokenize text).stray = none) :
    ∃ more, scanFrom mode ⟨rest, 0 + byteLength start.toList, 1 + start.toList.length⟩ =
      ⟨more, none⟩ := by
  obtain ⟨next, rfl, hscan⟩ := h rest
  rw [← htext] at hscan
  change tokenize text = _ at hscan
  rw [hscan] at hstray
  exact ⟨_, by rw [← hstray]⟩

/-- A text is parsed from the tokens of its start and those of the rest. -/
theorem ScansAt.parse_eq {start text : String} {rest : List Char} {more : List Token}
    (h : ScansAt .outside 0 1 start.toList tokens mode)
    (htext : text.toList = start.toList ++ rest)
    (hrest : scanFrom mode ⟨rest, 0 + byteLength start.toList, 1 + start.toList.length⟩ =
      ⟨more, none⟩) :
    parse text = parseTokens (byteLength text.toList) (tokens ++ more) := by
  obtain ⟨next, rfl, hscan⟩ := h rest
  rw [hrest, ← htext] at hscan
  have htokenize : tokenize text = ⟨tokens ++ more, none⟩ := hscan
  rw [parse_of_stray (by rw [htokenize]), htokenize]

end Start

section Texts

variable {kind : ElementKind} {p : ParameterDefinition} {text : String}

/-- The text of an element up to what is given for one of its parameters. -/
def givenStart (kind : ElementKind) (name : String) : String :=
  kind.symbol ++ "\x7b" ++ name ++ "="

/-- The tokens up to what is given for a parameter. -/
theorem exists_scansAt_givenStart (hp : p ∈ kind.parameters) :
    ∃ symbol brace name equals,
      ScansAt .outside 0 1 (givenStart kind p.name).toList [symbol, brace, name, equals] .block ∧
        symbol.kind = .symbol ∧ ElementKind.ofSymbol? symbol.text = some kind ∧
        brace.kind = .openBrace ∧ name.kind = .identifier ∧ name.text = p.name ∧
        equals.kind = .equals := by
  have hname := Element.isName_definition kind p hp
  have hstart : (givenStart kind p.name).toList =
      kind.symbol.toList ++ (['\x7b'] ++ (p.name.toList ++ (['='] ++ []))) := by
    simp [givenStart]
  rw [hstart]
  have hsymbol (rest : List Char) : Lexeme.next? .outside (kind.symbol.toList ++
      (['\x7b'] ++ (p.name.toList ++ (['='] ++ [])) ++ rest)) =
        some (.symbol, kind.symbol.toList.length) := Lexeme.next?_symbol kind rfl
  have hidentifier (rest : List Char) : Lexeme.next? .block
      (p.name.toList ++ (['='] ++ [] ++ rest)) = some (.identifier, p.name.toList.length) :=
    Lexeme.next?_name hname rfl
  refine ⟨_, _, _, _,
    .cons (by decide) (by cases kind <;> decide) (by cases kind <;> decide) hsymbol <|
    .cons (by decide) (List.cons_ne_nil _ _) rfl (fun _ => rfl) <|
    .cons (by decide) (Lexeme.ne_nil_of_isName hname) (Lexeme.head?_of_isName hname) hidentifier <|
    .cons (by decide) (List.cons_ne_nil _ _) rfl (fun _ => rfl) .nil,
    rfl, ?_, rfl, rfl, String.ofList_toList, rfl⟩
  rw [String.ofList_toList]
  exact ElementKind.ofSymbol?_symbol kind

/-- The text of an element for which one parameter is given. -/
def givenText (kind : ElementKind) (name text : String) : String :=
  givenStart kind name ++ text ++ "\x7d"

theorem toList_givenText (kind : ElementKind) (name text : String) :
    (givenText kind name text).toList =
      (givenStart kind name).toList ++ (text.toList ++ ['\x7d']) := by
  simp [givenText]

/-- What is given for a parameter is accepted or refused for a limit, unless an infinity in it is
    one word with the mark after it. -/
theorem upToLimits_of_produces (hp : p ∈ kind.parameters)
    (h : Produces NumeralText False text.toList) (hword : ¬ ['f', 'F'] <:+: text.toList) :
    UpToLimits (parse (givenText kind p.name text)) := by
  obtain ⟨pieces, hproduction, hspaced⟩ := h
  obtain ⟨lexemes, hseparate, hdefines⟩ := hproduction.separate
  obtain ⟨symbol, brace, name, equals, hstart, hsymbol, hkind, hbrace, hname, htext, hequals⟩ :=
    exists_scansAt_givenStart hp
  obtain ⟨tokens, htokens, hscan⟩ := exists_scanFrom_of_separate hseparate hspaced hword
    (0 + byteLength (givenStart kind p.name).toList) (1 + (givenStart kind p.name).toList.length)
  rw [hstart.parse_eq (toList_givenText kind p.name text) hscan]
  obtain ⟨body, closing, rfl, hbody, hclosing⟩ := List.map_eq_append_iff.mp htokens
  obtain ⟨close, closing, rfl, hclose, hnil⟩ := List.map_eq_cons_iff.mp hclosing
  obtain rfl := List.map_eq_nil_iff.mp hnil
  obtain ⟨d, hd⟩ := hdefines id name equals body hname hequals hbody
  exact upToLimits_of_defines hsymbol hkind hbrace
    (ElementKind.parameter?_eq_some_iff.mpr ⟨hp, htext.symm⟩) hd (Prod.mk.inj hclose).1

/-- The text up to the end of some tokens of a definition has these tokens. -/
theorem scanFrom_beginning {cursor : Cursor} {beginning rest : List Char} {taken after : List Token}
    (hscan : scanFrom .block cursor = ⟨taken ++ after, none⟩)
    (hsplit : cursor.rest = beginning ++ rest) (hnil : taken = [] → beginning = [])
    (hstop : ∀ last ∈ taken.getLast?, last.stop = cursor.position + byteLength beginning)
    (hkind : ∀ token ∈ taken, token.kind ≠ .symbol ∧ token.kind ≠ .label) :
    scanFrom .block ⟨beginning, cursor.position, cursor.column⟩ = ⟨taken, none⟩ := by
  have htruncated : Truncated .block cursor beginning rest taken after :=
    ⟨hsplit, hscan, hnil, hstop, fun token htoken hsymbol => absurd hsymbol (hkind token htoken).1⟩
  obtain ⟨kept, hkept, hkeeps⟩ := htruncated.exists_scanFrom
  cases hkeeps with
  | all => exact hkept
  | @label _ label hbefore hlabel =>
    exact absurd hlabel (hkind label (by simp [hbefore])).2

/-- A character that starts no token is no matter of limits. -/
theorem UpToLimits.stray_eq_none (h : UpToLimits (parse text)) : (tokenize text).stray = none := by
  cases hscan : (tokenize text).stray with
  | none => rfl
  | some stray =>
    have hlimit := h (.ofStray stray) (by simp only [parse, Parser.process, hscan])
    cases hlimit

/-- What is accepted for a parameter is as the production has it, and another word for infinity may
    follow a sign. What is refused for a limit is refused already where its numbers end. -/
theorem produces_of_upToLimits (hp : p ∈ kind.parameters)
    (htext : ∀ c ∈ text.toList, c ∉ [',', ':', '\x7b', '\x7d'])
    (h : UpToLimits (parse (givenText kind p.name text))) :
    (∃ c, parse (givenText kind p.name text) = .ok c ∧ Produces LooseNumeral False text.toList) ∨
      ∃ e beginning rest, parse (givenText kind p.name text) = .error e ∧
        text = beginning ++ rest ∧ Produces LooseNumeral False beginning.toList ∧
        parse (givenStart kind p.name ++ beginning) = .error e := by
  obtain ⟨symbol, brace, name, equals, hstart, hsymbol, hkind, hbrace, hname, hnametext, hequals⟩ :=
    exists_scansAt_givenStart hp
  obtain ⟨tokens, hscan⟩ := hstart.exists_rest (toList_givenText kind p.name text) h.stray_eq_none
  obtain ⟨body, close, rfl, hclose, hlaid, hbody⟩ := exists_laid_of_scanFrom rfl htext hscan
  rw [hstart.parse_eq (toList_givenText kind p.name text) hscan] at h ⊢
  have hfollow : ∀ t ∈ equals :: (body ++ [close]), t.kind ≠ .comma ∧ t.kind ≠ .colon := by
    rw [List.forall_mem_cons, List.forall_mem_append, List.forall_mem_singleton, hequals, hclose]
    exact ⟨by decide, fun t ht => ⟨(hbody t ht).within.1, (hbody t ht).within.2.1⟩, by decide⟩
  obtain ⟨taken, d, rest, hsplit, hdefines, hend⟩ := defines_of_upToLimits hsymbol hkind hbrace
    hname (ElementKind.parameter?_eq_some_iff.mpr ⟨hp, hnametext.symm⟩) hfollow h
  obtain ⟨taken, rfl⟩ : ∃ more, taken = equals :: more := by
    cases hdefines with
    | mk => exact ⟨_, congrArg (List.cons · _) (List.cons.inj hsplit).1.symm⟩
  have hdefinition : ∀ kind ∈ definitionKinds,
      kind ≠ .closeBrace ∧ kind ≠ .symbol ∧ kind ≠ .label := by decide
  have hkinds : ∀ token ∈ taken, token.kind ≠ .closeBrace ∧ token.kind ≠ .symbol ∧
      token.kind ≠ .label :=
    fun token htoken => hdefinition token.kind (hdefines.kind_mem token (by simp [htoken]))
  -- the closing brace is no part of the definition, so this is a beginning of what is given
  obtain ⟨more, hmore, -⟩ | ⟨more, rfl, rfl⟩ :=
    append_cons_eq_append_iff.mp (List.cons.inj hsplit).2
  · exact absurd hclose (hkinds close (by simp [hmore])).1
  have hproduction := production_of_defines hdefines fun t ht => hbody t (List.mem_append_left _ ht)
  obtain ⟨close', after, hfirst, hclose', hok⟩ | ⟨cause, herror, halone⟩ := hend
  · left
    cases more with
    | nil =>
      obtain ⟨c, hc⟩ := hok (List.cons.inj hfirst).2.symm
      rw [List.append_nil] at hlaid
      exact ⟨c, hc, _, hproduction, hlaid.spaced⟩
    | cons t more =>
      obtain ⟨rfl, -⟩ := List.cons.inj hfirst
      exact absurd hclose' (hbody t (by simp)).within.2.2
  · right
    obtain ⟨beginning, rest, hbeginning, hlaid, hnil, hstop⟩ := hlaid.exists_beginning
    have hrest : text.toList ++ ['\x7d'] = beginning ++ (rest ++ ['\x7d']) := by
      rw [hbeginning, List.append_assoc]
    rw [List.append_assoc] at hscan
    have hscan := scanFrom_beginning hscan hrest hnil hstop fun t ht => (hkinds t ht).2
    refine ⟨cause, .ofList beginning, .ofList rest, herror, ?_, ?_, ?_⟩
    · apply String.toList_injective
      simp [hbeginning]
    · rw [String.toList_ofList]
      exact ⟨_, hproduction, hlaid.spaced⟩
    · rw [hstart.parse_eq (by simp) hscan]
      exact halone _

end Texts

section Documented

open Number (AllDigits)

variable {text : List Char}

/-- A text may be given for a parameter according to the grammar. -/
def Documented (text : List Char) : Prop :=
  Produces WholeNumeral True text

theorem not_documented_of_point {rest : List Char} : ¬ Documented ('.' :: rest) := by
  rintro ⟨_, @⟨value, _, _, hvalue, -, -⟩, hspaced⟩
  generalize htext : '.' :: rest = text at hspaced
  cases hspaced with
  | @cons gap _ text _ hgap h =>
    have hpoint : (gap ++ (value ++ text)).head? = some '.' := by rw [← htext, List.head?_cons]
    cases gap with
    | cons c gap =>
      obtain rfl : c = '.' := Option.some.inj hpoint
      cases hgap '.' List.mem_cons_self
    | nil =>
      obtain ⟨c, value, rfl⟩ := List.exists_cons_of_ne_nil hvalue.numeralText.ne_nil
      exact hvalue.head?_ne_point hpoint

/-- The only word in what may be given is the mark of a fixed parameter. -/
theorem Separate.eq_of_identifier {pieces : List (List Char)}
    {lexemes : List (TokenKind × String)} (h : Separate pieces lexemes) :
    ∀ lexeme ∈ lexemes, lexeme.1 = .identifier → lexeme.2 = "F" := by
  induction h with
  | nil => exact List.forall_mem_nil _
  | flag => simp
  | slash h ih => exact List.forall_mem_cons.mpr ⟨nofun, ih⟩
  | number htext hnext h ih => exact List.forall_mem_cons.mpr ⟨nofun, ih⟩

theorem Documented.eq_of_identifier {tokens : List Token} {position column : Nat}
    (h : Documented text) (hword : ¬ ['f', 'F'] <:+: text)
    (hscan : scanFrom .block ⟨text ++ ['\x7d'], position, column⟩ = ⟨tokens, none⟩) :
    ∀ token ∈ tokens, token.kind = .identifier → token.text = "F" := by
  intro token htoken hkind
  obtain ⟨pieces, hproduction, hspaced⟩ := Produces.mono h (fun _ => WholeNumeral.numeralText) id
  obtain ⟨lexemes, hseparate, -⟩ := hproduction.separate
  obtain ⟨tokens', htokens, hscan'⟩ :=
    exists_scanFrom_of_separate hseparate hspaced hword position column
  rw [hscan] at hscan'
  cases hscan'
  have hmem : token.lexeme ∈ lexemes ++ [(.closeBrace, "\x7d")] :=
    htokens ▸ List.mem_map_of_mem htoken
  rcases List.mem_append.mp hmem with hmem | hmem
  · exact hseparate.eq_of_identifier _ hmem hkind
  · have hclose : token.kind = .closeBrace := congrArg Prod.fst (List.mem_singleton.mp hmem)
    rw [hclose] at hkind
    cases hkind

/-- What is given for the resistance of an element is accepted or refused for a limit if it is a
    value, limits and the mark of a fixed parameter. Nothing else is accepted, and what is refused
    for a limit is refused where its numbers end, whatever follows. -/
theorem parse_given_resistance (w : String)
    (hw : ∀ c ∈ w.toList, c ∉ [',', ':', '\x7b', '\x7d']) :
    (Produces NumeralText False w.toList → ¬ ['f', 'F'] <:+: w.toList →
        UpToLimits (parse ("K\x7bR=" ++ w ++ "\x7d"))) ∧
      (∀ c, parse ("K\x7bR=" ++ w ++ "\x7d") = .ok c → Produces LooseNumeral True w.toList) ∧
      ∀ e, parse ("K\x7bR=" ++ w ++ "\x7d") = .error e → e.isLimit = true →
        ∃ beginning rest, w = beginning ++ rest ∧ Produces LooseNumeral True beginning.toList ∧
          parse ("K\x7bR=" ++ beginning) = .error e := by
  obtain ⟨p, hp, hname⟩ : ∃ p ∈ ElementKind.kramersKronig.parameters, p.name = "R" := by decide
  have hstart : "K\x7bR=" = givenStart .kramersKronig p.name := by
    rw [hname]
    decide
  have htext : "K\x7bR=" ++ w ++ "\x7d" = givenText .kramersKronig p.name w := by
    rw [hstart, givenText]
  have hloose {text : List Char} (h : Produces LooseNumeral False text) :
      Produces LooseNumeral True text := h.mono (fun _ => id) False.elim
  rw [htext, hstart]
  refine ⟨upToLimits_of_produces hp, fun c hc => ?_, fun e he hlimit => ?_⟩
  · have haccepted : UpToLimits (parse (givenText .kramersKronig p.name w)) := by
      intro e he
      rw [hc] at he
      cases he
    obtain ⟨-, -, hproduces⟩ | ⟨e, -, -, he, -⟩ := produces_of_upToLimits hp hw haccepted
    · exact hloose hproduces
    · rw [hc] at he
      cases he
  · have hrefused : UpToLimits (parse (givenText .kramersKronig p.name w)) := by
      rw [he]
      rintro _ ⟨⟩
      exact hlimit
    obtain ⟨c, hc, -⟩ | ⟨e', beginning, rest, he', hsplit, hproduces, halone⟩ :=
      produces_of_upToLimits hp hw hrefused
    · rw [he] at hc
      cases hc
    · rw [he] at he'
      cases he'
      exact ⟨beginning, rest, hsplit, hloose hproduces, halone⟩

/-- A value with a lower limit may be fixed. A limit that is violated hides the word after it. -/
theorem parse_given_resistance_lowerLimit :
    ((∀ c ∈ ".5/-inf F".toList, c ∉ [',', ':', '\x7b', '\x7d']) ∧
        Produces NumeralText False ".5/-inf F".toList ∧ ¬ ['f', 'F'] <:+: ".5/-inf F".toList ∧
        UpToLimits (parse ("K\x7bR=" ++ ".5/-inf F" ++ "\x7d")) ∧
        ∃ c, parse ("K\x7bR=" ++ ".5/-inf F" ++ "\x7d") = .ok c ∧
          Produces LooseNumeral True ".5/-inf F".toList) ∧
      (∀ c ∈ "5/6 x".toList, c ∉ [',', ':', '\x7b', '\x7d']) ∧
        parse ("K\x7bR=" ++ "5/6 x" ++ "\x7d") = .error (.lowerLimit 2 "R" 5 6) ∧
        ∃ beginning rest, "5/6 x" = beginning ++ rest ∧
          Produces LooseNumeral True beginning.toList ∧
          parse ("K\x7bR=" ++ beginning) = .error (.lowerLimit 2 "R" 5 6) := by
  have hlimit : ∀ c ∈ ".5/-inf F".toList, c ∉ [',', ':', '\x7b', '\x7d'] := by simp
  have hword : ∀ c ∈ "5/6 x".toList, c ∉ [',', ':', '\x7b', '\x7d'] := by simp
  have hwhole : AllDigits [] := List.forall_mem_nil _
  have hdigits : AllDigits ['5'] := List.forall_mem_singleton.mpr rfl
  have hvalue : NumeralText ['.', '5'] :=
    .decimal .none (.mk hwhole (.point hdigits) (.inr (List.cons_ne_nil _ _)) .none)
  have hgap : AllBlank [' '] := List.forall_mem_singleton.mpr rfl
  have hproduces : Produces NumeralText False ".5/-inf F".toList := by
    refine ⟨_, .mk hvalue (.lower (.infinity .minus)) .present, ?_⟩
    exact .cons .nil (.cons .nil (.cons .nil (.cons hgap (.nil .nil))))
  have hapart : ¬ ['f', 'F'] <:+: ".5/-inf F".toList := by decide
  have hok : ∃ c, parse ("K\x7bR=" ++ ".5/-inf F" ++ "\x7d") = .ok c :=
    ⟨_, Circuit.parse_eq_ok_getD (by decide +kernel) (circuit [])⟩
  obtain ⟨c, hc⟩ := hok
  have he : parse ("K\x7bR=" ++ "5/6 x" ++ "\x7d") = .error (.lowerLimit 2 "R" 5 6) := by
    decide +kernel
  obtain ⟨haccepted, hconverse, -⟩ := parse_given_resistance ".5/-inf F" hlimit
  exact ⟨⟨hlimit, hproduces, hapart, haccepted hproduces hapart, c, hc, hconverse c hc⟩, hword, he,
    (parse_given_resistance "5/6 x" hword).2.2 _ he rfl⟩

/-- A number may start with the point, and what follows a violated limit is not looked at, although
    the grammar has neither. -/
theorem given_resistance_undocumented :
    ((∀ c ∈ ".5".toList, c ∉ [',', ':', '\x7b', '\x7d']) ∧
        UpToLimits (parse ("K\x7bR=" ++ ".5" ++ "\x7d")) ∧ ¬ Documented ".5".toList) ∧
      (∀ c ∈ "5/6 x".toList, c ∉ [',', ':', '\x7b', '\x7d']) ∧
        UpToLimits (parse ("K\x7bR=" ++ "5/6 x" ++ "\x7d")) ∧ ¬ Documented "5/6 x".toList := by
  refine ⟨⟨by simp, ?_, not_documented_of_point⟩, by simp, ?_, ?_⟩
  · have hok : (parse ("K\x7bR=" ++ ".5" ++ "\x7d")).toBool = true := by decide +kernel
    intro e he
    rw [he] at hok
    cases hok
  · have he : parse ("K\x7bR=" ++ "5/6 x" ++ "\x7d") = .error (.lowerLimit 2 "R" 5 6) := by
      decide +kernel
    rw [he]
    rintro _ ⟨⟩
    rfl
  · intro h
    have hscan : scanFrom .block ⟨"5/6 x".toList ++ ['\x7d'], 4, 5⟩ =
        ⟨[⟨.number, "5", 4, 5⟩, ⟨.slash, "/", 5, 6⟩, ⟨.number, "6", 6, 7⟩, ⟨.identifier, "x", 8, 9⟩,
          ⟨.closeBrace, "\x7d", 9, 10⟩], none⟩ := by decide +kernel
    have hx := h.eq_of_identifier (by decide) hscan ⟨.identifier, "x", 8, 9⟩ (by simp) rfl
    exact absurd hx (by decide)

end Documented

end CircuitCode
