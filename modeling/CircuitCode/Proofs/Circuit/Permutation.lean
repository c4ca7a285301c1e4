import Mathlib.Data.List.Perm.Basic
import CircuitCode.Proofs.Circuit.Composition
import CircuitCode.Proofs.Parsing.Blocks
import CircuitCode.Proofs.Text.Span
import CircuitCode.Proofs.Token.Boundary

/-!
# The order of definitions

Each definition in a parameter block is scanned into the same tokens wherever it stands between
commas (`BlockBody.forall₂_written`), and an element does not depend on the order in which its
parameters are given. So a text with the definitions of a block in another order is accepted
exactly if the text itself is, and stands for the same circuit (`parse_elementText_of_perm`).
-/

namespace CircuitCode

open Grammar

namespace Grammar

/-- A text that stands for a definition in a parameter block whichever mark comes next. -/
def Written (text : List Char) (d : Definition) : Prop :=
  ∃ tokens, Defines tokens d ∧ ScansBeforeMark text tokens

/-- The tokens of a definition are all up to the next mark between definitions. -/
theorem Defines.eq_of_append_eq {tokens piece rest more : List Token} {d : Definition}
    (h : Defines tokens d)
    (hpiece : ∀ token ∈ piece,
      token.kind ≠ .comma ∧ token.kind ≠ .colon ∧ token.kind ≠ .closeBrace)
    (hrest : TokenReader.EndsDefinition rest) (hmore : TokenReader.EndsDefinition more)
    (happend : tokens ++ rest = piece ++ more) : tokens = piece ∧ rest = more := by
  let inside (token : Token) : Bool :=
    token.kind != .comma && token.kind != .colon && token.kind != .closeBrace
  have hends {rest : List Token} (hrest : TokenReader.EndsDefinition rest) :
      rest.head?.any inside = false := by
    obtain ⟨next, rest, rfl, hkind | hkind | hkind⟩ := hrest <;> simp [inside, hkind]
  have hkinds : ∀ kind ∈ definitionKinds, kind ≠ .comma ∧ kind ≠ .colon ∧ kind ≠ .closeBrace := by
    decide
  have htokens : ∀ token ∈ tokens, inside token = true := by
    intro token htoken
    simpa [inside, and_assoc] using hkinds token.kind (h.kind_mem token htoken)
  have hpiece' : ∀ token ∈ piece, inside token = true := by
    intro token htoken
    simpa [inside, and_assoc] using hpiece token htoken
  exact append_inj_of_head? htokens hpiece' (hends hrest) (hends hmore) happend

section Scans

variable {mark : Char} {markKind : TokenKind} {tail : List Char} {cursor : Cursor}
  {after : List Token}

/-- The definition that is read first is the text up to the mark that ends it. -/
theorem Defines.exists_written {tokens rest : List Token} {d : Definition} {text : List Char}
    (h : Defines tokens d) (hrest : TokenReader.EndsDefinition rest)
    (hmark : TokenKind.punctuation? mark = some markKind)
    (hkind : markKind = .comma ∨ markKind = .colon ∨ markKind = .closeBrace)
    (htext : ∀ c ∈ text, c ∉ [',', ':', '\x7b', '\x7d'])
    (hsplit : cursor.rest = text ++ mark :: tail)
    (hscan : scanFrom .block cursor = ⟨tokens ++ rest, none⟩) :
    Written text d ∧ ∃ token more next, rest = token :: more ∧ token.kind = markKind ∧
      next.rest = mark :: tail ∧ scanFrom .block next = ⟨rest, none⟩ := by
  obtain ⟨piece, others, next, happend, hnext, hothers, hpiece, hscans⟩ :=
    exists_scans_of_scanFrom hmark htext hsplit hscan
  obtain ⟨token, more, -, rfl, htoken, -, -⟩ :=
    exists_scanFrom_of_mark (by decide) hmark hnext hothers
  have htoken : token.kind = markKind := congrArg Prod.fst htoken
  obtain ⟨rfl, rfl⟩ := h.eq_of_append_eq hpiece hrest ⟨token, more, rfl, htoken ▸ hkind⟩ happend
  exact ⟨⟨tokens, h, hscans⟩, token, more, next, rfl, htoken, hnext, hothers⟩

/-- Between its braces a block has its definitions in the order in which they are written, with
    commas between, and then its end. -/
theorem BlockBody.forall₂_written {body : List Token} {definitions : List Definition}
    {label : Option String} (h : BlockBody body definitions label) {texts : List (List Char)}
    (hne : texts ≠ []) (htexts : ∀ text ∈ texts, ∀ c ∈ text, c ∉ [',', ':', '\x7b', '\x7d'])
    (hmark : TokenKind.punctuation? mark = some markKind)
    (hkind : markKind = .colon ∨ markKind = .closeBrace)
    (hsplit : cursor.rest = [','].intercalate texts ++ mark :: tail)
    (hscan : scanFrom .block cursor = ⟨body ++ after, none⟩) :
    List.Forall₂ Written texts definitions ∧ ∃ close next, BlockEnd close label ∧
      next.rest = mark :: tail ∧ scanFrom .block next = ⟨close ++ after, none⟩ := by
  have hpunctuation : TokenKind.punctuation? ',' = some .comma := rfl
  induction h generalizing texts cursor with
  | @last tokens close d label hdefinition hclose =>
    rw [List.append_assoc] at hscan
    have hends := hclose.endsDefinition after
    obtain ⟨text, texts, rfl⟩ := List.exists_cons_of_ne_nil hne
    rw [List.forall_mem_cons] at htexts
    cases texts with
    | nil =>
      rw [List.intercalate_singleton] at hsplit
      obtain ⟨hwritten, -, -, next, -, -, hnext, hscan⟩ :=
        hdefinition.exists_written hends hmark (.inr hkind) htexts.1 hsplit hscan
      exact ⟨.cons hwritten .nil, close, next, hclose, hnext, hscan⟩
    | cons text' texts =>
      rw [List.intercalate_cons_cons, List.append_assoc, List.append_assoc] at hsplit
      obtain ⟨-, comma, more, -, hcomma, hkind, -⟩ :=
        hdefinition.exists_written hends hpunctuation (.inl rfl) htexts.1 hsplit hscan
      exact absurd hcomma (hclose.append_ne_comma hkind)
  | @cons tokens rest comma d definitions label hdefinition hcomma hrest ih =>
    rw [List.append_assoc, List.cons_append] at hscan
    have hends := endsDefinition_comma hcomma (rest ++ after)
    obtain ⟨text, texts, rfl⟩ := List.exists_cons_of_ne_nil hne
    rw [List.forall_mem_cons] at htexts
    cases texts with
    | nil =>
      rw [List.intercalate_singleton] at hsplit
      obtain ⟨-, token, more, next, hcons, htoken, -⟩ :=
        hdefinition.exists_written hends hmark (.inr hkind) htexts.1 hsplit hscan
      obtain ⟨rfl, -⟩ := List.cons.inj hcons
      rw [← htoken, hcomma] at hkind
      simp at hkind
    | cons text' texts =>
      rw [List.intercalate_cons_cons, List.append_assoc, List.append_assoc] at hsplit
      obtain ⟨hwritten, -, -, next, -, -, hnext, hscan⟩ :=
        hdefinition.exists_written hends hpunctuation (.inl rfl) htexts.1 hsplit hscan
      obtain ⟨_, _, next', hcons, -, hnext', hscan'⟩ :=
        exists_scanFrom_of_mark (by decide) hpunctuation hnext hscan
      obtain ⟨-, rfl⟩ := List.cons.inj hcons
      obtain ⟨hothers, hend⟩ := ih (List.cons_ne_nil _ _) htexts.2 hnext' hscan'
      exact ⟨.cons hwritten hothers, hend⟩

/-- Definitions that are written with commas between make up a block. -/
theorem exists_blockBody_of_written {texts : List (List Char)} {definitions : List Definition}
    (h : List.Forall₂ Written texts definitions) (hne : texts ≠ []) {close : List Token}
    {label : Option String} {mode : LexicalMode} (hclose : BlockEnd close label)
    (hmark : TokenKind.punctuation? mark = some markKind)
    (hend : Scans .block (mark :: tail) [] ((close ++ after).map Token.lexeme) mode) :
    ∃ body, BlockBody body definitions label ∧
      Scans .block ([','].intercalate texts ++ mark :: tail) []
        ((body ++ after).map Token.lexeme) mode := by
  induction h with
  | nil => exact absurd rfl hne
  | @cons text d texts definitions hwritten hothers ih =>
    obtain ⟨tokens, hdefines, hscans⟩ := hwritten
    cases hothers with
    | nil =>
      refine ⟨tokens ++ close, .last hdefines hclose, ?_⟩
      rw [List.intercalate_singleton, List.append_assoc, List.map_append]
      exact (hscans mark markKind _ hmark).append hend
    | cons hnext hothers =>
      obtain ⟨rest, hrest, hmore⟩ := ih (List.cons_ne_nil _ _)
      refine ⟨tokens ++ ⟨.comma, ",", 0, 0⟩ :: rest, .cons hdefines rfl hrest, ?_⟩
      rw [List.intercalate_cons_cons, List.append_assoc, List.append_assoc, List.append_assoc,
        List.map_append]
      exact (hscans ',' .comma _ rfl).append (.cons (.mark (by decide) rfl) hmore)

/-- The end of a block and all that comes after it are scanned like this wherever they stand. -/
theorem BlockEnd.scans {close : List Token} {label : Option String} (h : BlockEnd close label)
    (hafter : Closed after) (hscan : scanFrom .block cursor = ⟨close ++ after, none⟩) :
    Scans .block cursor.rest [] ((close ++ after).map Token.lexeme) .outside := by
  obtain ⟨houtside, brace, hlast, hbrace⟩ := h.closes
  have hfinal : ∀ token ∈ (close ++ after).getLast?, token.Final := by
    intro token htoken
    rw [List.getLast?_append, Option.mem_def, Option.or_eq_some_iff] at htoken
    rcases htoken with htoken | ⟨-, htoken⟩
    · exact hafter.final token htoken
    · obtain rfl := Option.some.inj (hlast.symm.trans htoken)
      exact Token.final_of_kind hbrace (by decide)
  have hscans : Scans .block cursor.rest [] _ _ := (Cut.atEnd hscan hfinal).scans rfl
  rwa [LexicalMode.nextAll_append, houtside, hafter.outside] at hscans

/-- The texts of the definitions may be put in another order where a block stands. -/
theorem parse_of_perm {front : List Char} {texts texts' : List (List Char)} {text text' : String}
    (hperm : texts.Perm texts') (hne : texts ≠ [])
    (htexts : ∀ text ∈ texts, ∀ c ∈ text, c ∉ [',', ':', '\x7b', '\x7d'])
    (hmark : TokenKind.punctuation? mark = some markKind)
    (hkind : markKind = .colon ∨ markKind = .closeBrace)
    (htext : text.toList = front ++ '\x7b' :: ([','].intercalate texts ++ mark :: tail))
    (htext' : text'.toList = front ++ '\x7b' :: ([','].intercalate texts' ++ mark :: tail))
    {c : Circuit} (h : parse text = .ok c) : parse text' = .ok c := by
  obtain ⟨hstray, nodes, hnodes, hderives, hvalid, rfl⟩ := parse_eq_ok_iff.mp h
  have hopen : TokenKind.punctuation? '\x7b' = some .openBrace := rfl
  have hscan : scanFrom .outside (.start text.toList) = ⟨(tokenize text).tokens, none⟩ := by
    rw [← hstray]
    rfl
  obtain ⟨token, htoken, hlabel, hmem⟩ | ⟨before, brace, after, htokens, hbrace, hstops, hstarts⟩ :=
    exists_token_of_mark hopen htext hscan
  · -- no element has a label with a brace
    obtain ⟨x, hx, hx'⟩ := hderives.exists_label htoken hlabel
    obtain ⟨node, hnode, hx⟩ := List.mem_flatMap.mp hx
    exact absurd hmem ((hvalid node hnode x hx).label _ hx')
  rw [htokens] at hderives hscan
  obtain ⟨x, body, after, rfl, hblock⟩ := hderives.exists_block rfl hbrace
  obtain ⟨hfront, column, hrest⟩ := hblock.closed_before.cut htext hscan hstops hstarts
  obtain ⟨_, _, next, hcons, hlexeme, hnext, hinner⟩ :=
    exists_scanFrom_of_mark (by decide) hopen rfl hrest
  obtain ⟨rfl, rfl⟩ := List.cons.inj hcons
  obtain ⟨hwritten, close, next', hclose, hnext', hclosing⟩ :=
    hblock.derives.forall₂_written hne htexts hmark hkind hnext hinner
  obtain ⟨definitions, hwritten', hdefinitions⟩ := List.perm_comp_forall₂ hperm.symm hwritten
  have hend := hclose.scans hblock.closed_after hclosing
  rw [hnext'] at hend
  obtain ⟨body', hbody', hscans⟩ := exists_blockBody_of_written hwritten'
    (fun hnil => hne (List.Perm.eq_nil (hnil ▸ hperm))) hclose hmark hend
  obtain ⟨nodes', hnodes', hne', hvalid', hcircuit⟩ :=
    hblock.exists_reordered hbody' hdefinitions.symm hnodes hvalid
  rw [← hcircuit]
  refine parse_eq_of_scans ?_ hnodes' hne' hvalid'
  rw [htext', List.map_append, List.map_cons, hlexeme]
  exact (hfront _ rfl).append (.cons (.mark (by decide) hopen) hscans)

end Scans

end Grammar

/-- The text of an element with a parameter block: the given definitions with commas between, and
    perhaps a label. -/
def ElementKind.elementText (kind : ElementKind) (definitions : List String)
    (label : Option String) : String :=
  kind.symbol ++ "\x7b" ++ String.intercalate "," definitions ++
    (match label with
      | some text => ":" ++ text
      | none => "") ++ "\x7d"

/-- After its definitions a block goes on with a colon or with its closing brace. -/
theorem ElementKind.exists_toList_elementText (kind : ElementKind) (label : Option String)
    (front back : String) :
    ∃ mark markKind tail, TokenKind.punctuation? mark = some markKind ∧
      (markKind = .colon ∨ markKind = .closeBrace) ∧
      ∀ definitions, (front ++ kind.elementText definitions label ++ back).toList =
        (front ++ kind.symbol).toList ++
          '\x7b' :: ([','].intercalate (definitions.map String.toList) ++ mark :: tail) := by
  cases label with
  | none =>
    refine ⟨'\x7d', .closeBrace, back.toList, rfl, .inr rfl, fun definitions => ?_⟩
    simp [elementText, String.toList_intercalate]
  | some text =>
    refine ⟨':', .colon, text.toList ++ '\x7d' :: back.toList, rfl, .inl rfl,
      fun definitions => ?_⟩
    simp [elementText, String.toList_intercalate]

/-- The order of the definitions in a parameter block does not matter, wherever in a text the block
    stands: neither for whether the text is accepted nor for the circuit that it describes. A
    definition is written without any of the marks that separate or enclose definitions. -/
theorem parse_elementText_of_perm (kind : ElementKind) {definitions definitions' : List String}
    (hperm : definitions.Perm definitions')
    (hplain : ∀ text ∈ definitions, ∀ c ∈ text.toList, c ∉ [',', ':', '\x7b', '\x7d'])
    (label : Option String) (front back : String) (c : Circuit) :
    parse (front ++ kind.elementText definitions label ++ back) = .ok c ↔
      parse (front ++ kind.elementText definitions' label ++ back) = .ok c := by
  have hplain' : ∀ text ∈ definitions', ∀ c ∈ text.toList, c ∉ [',', ':', '\x7b', '\x7d'] :=
    fun text htext => hplain text (hperm.mem_iff.mpr htext)
  by_cases hne : definitions = []
  · subst hne
    rw [hperm.nil_eq]
  have hne' : definitions' ≠ [] := fun hnil => hne (List.Perm.eq_nil (hnil ▸ hperm))
  obtain ⟨mark, markKind, tail, hmark, hkind, htext⟩ :=
    kind.exists_toList_elementText label front back
  have hlists := hperm.map String.toList
  constructor
  · exact parse_of_perm hlists (by simpa using hne) (List.forall_mem_map.mpr hplain) hmark hkind
      (htext definitions) (htext definitions')
  · exact parse_of_perm hlists.symm (by simpa using hne') (List.forall_mem_map.mpr hplain') hmark
      hkind (htext definitions') (htext definitions)

/-- Three of the four parameters of a relaxation between other elements, with limits and a mark. -/
theorem parse_elementText_of_perm_relaxation :
    ["dC=2e-6F", "t=.5/.25", "a=1//1"].Perm ["a=1//1", "dC=2e-6F", "t=.5/.25"] ∧
      (∀ text ∈ ["dC=2e-6F", "t=.5/.25", "a=1//1"], ∀ c ∈ text.toList,
        c ∉ [',', ':', '\x7b', '\x7d']) ∧
      ∃ c, parse ("R(" ++ ElementKind.havriliakNegami.elementText
            ["dC=2e-6F", "t=.5/.25", "a=1//1"] (some "pore") ++ "C)") = .ok c ∧
        parse ("R(" ++ ElementKind.havriliakNegami.elementText
            ["a=1//1", "dC=2e-6F", "t=.5/.25"] (some "pore") ++ "C)") = .ok c := by
  have hperm : ["dC=2e-6F", "t=.5/.25", "a=1//1"].Perm ["a=1//1", "dC=2e-6F", "t=.5/.25"] :=
    @List.perm_append_comm _ ["dC=2e-6F", "t=.5/.25"] ["a=1//1"]
  have hplain : ∀ text ∈ ["dC=2e-6F", "t=.5/.25", "a=1//1"], ∀ c ∈ text.toList,
      c ∉ [',', ':', '\x7b', '\x7d'] := by
    simp
  have hok : ∃ c, parse ("R(" ++ ElementKind.havriliakNegami.elementText
      ["dC=2e-6F", "t=.5/.25", "a=1//1"] (some "pore") ++ "C)") = .ok c :=
    ⟨_, Circuit.parse_eq_ok_getD (by decide +kernel) (circuit [])⟩
  obtain ⟨c, hc⟩ := hok
  exact ⟨hperm, hplain, c, hc,
    (parse_elementText_of_perm .havriliakNegami hperm hplain (some "pore") "R(" "C)" c).mp hc⟩

end CircuitCode
