import CircuitCode.Proofs.Token.Cut
import CircuitCode.Proofs.Token.Numeral

/-!
# Texts with blanks between their tokens

The tokens in a parameter block up to its closing brace make up its text, with blanks between them
(`exists_laid_of_scanFrom`). The other way round numbers, slashes and marks of fixed parameters
are found wherever they stand like that and no infinity is one word with the mark after it
(`Separate.scans`).
-/

namespace CircuitCode

namespace TokenKind

/-- A kind of token has one mark at most. -/
theorem punctuation?_inj {c c' : Char} {kind : TokenKind} (h : punctuation? c = some kind)
    (h' : punctuation? c' = some kind) : c = c' := by
  unfold punctuation? at h
  split at h <;> cases h <;> unfold punctuation? at h' <;> split at h' <;> first | rfl | cases h'

theorem ne_of_punctuation? {c : Char} {kind : TokenKind} (h : punctuation? c = some kind) :
    kind ≠ .symbol ∧ kind ≠ .number ∧ kind ≠ .identifier ∧ kind ≠ .label := by
  unfold punctuation? at h
  split at h <;> cases h <;> decide

end TokenKind

/-- Tokens of punctuation marks have the marks for their texts. -/
def Spelled (tokens : List Token) : Prop :=
  ∀ token ∈ tokens, ∀ c,
    TokenKind.punctuation? c = some token.kind → token.text = String.singleton c

theorem Lexes.text_eq_of_punctuation? {mode : LexicalMode} {kind : TokenKind}
    {gap text trailing rest : List Char} (h : Lexes mode kind gap text trailing rest) {c : Char}
    (hc : TokenKind.punctuation? c = some kind) : text = [c] := by
  obtain ⟨hsymbol, hnumber, hidentifier, hlabel⟩ := TokenKind.ne_of_punctuation? hc
  cases h with
  | label => exact absurd rfl hlabel
  | lexeme hmode hgap hne hhead hnext =>
    obtain ⟨d, more, rfl⟩ := List.exists_cons_of_ne_nil hne
    rw [List.cons_append, Lexeme.next?_cons_eq_some_iff] at hnext
    cases hnext with
    | mark hkind hlength =>
      obtain rfl := TokenKind.punctuation?_inj hkind hc
      obtain rfl : more = [] := by simpa using hlength
      rfl
    | symbol _ _ hkind => exact absurd hkind hsymbol
    | number _ _ _ hkind => exact absurd hkind hnumber
    | word _ _ _ _ hkind =>
      split at hkind
      · exact absurd hkind hnumber
      · exact absurd hkind hidentifier

theorem spelled_scanFrom (mode : LexicalMode) (cursor : Cursor) :
    Spelled (scanFrom mode cursor).tokens := by
  fun_induction scanFrom mode cursor with
  | case1 => exact List.forall_mem_nil _
  | case2 => exact List.forall_mem_nil _
  | case3 mode cursor token mode' next h rest ih =>
    obtain ⟨kind, gap, text, trailing, left, -, hlexes, -, rfl, -⟩ := scanStep_eq_token_iff.mp h
    refine List.forall_mem_cons.mpr ⟨fun c hc => ?_, ih⟩
    rw [hlexes.text_eq_of_punctuation? hc]
    rfl

/-- A text is made up of the given pieces, with blanks around each of them. -/
inductive Spaced : List (List Char) → List Char → Prop where
  | nil {gap : List Char} (hgap : AllBlank gap) : Spaced [] gap
  | cons {gap piece text : List Char} {pieces : List (List Char)} (hgap : AllBlank gap)
      (h : Spaced pieces text) : Spaced (piece :: pieces) (gap ++ (piece ++ text))

namespace Spaced

variable {pieces : List (List Char)} {text rest : List Char}

/-- A text starts with a blank or with its first piece. -/
theorem head?_cases (h : Spaced pieces text) (hne : ∀ piece ∈ pieces, piece ≠ []) :
    (∃ c, (text ++ rest).head? = some c ∧ isBlank c = true) ∨
      (text ++ rest).head? = (pieces.flatten ++ rest).head? := by
  cases h with
  | nil hgap =>
    cases text with
    | nil => exact .inr rfl
    | cons c text => exact .inl ⟨c, rfl, hgap c List.mem_cons_self⟩
  | @cons gap piece text pieces hgap h =>
    cases gap with
    | cons c gap => exact .inl ⟨c, rfl, hgap c List.mem_cons_self⟩
    | nil =>
      obtain ⟨c, more, rfl⟩ := List.exists_cons_of_ne_nil (hne piece List.mem_cons_self)
      exact .inr rfl

end Spaced

section Found

/-- From a position on, a text is made up of the given tokens, with blanks around each of them. -/
inductive Laid : Nat → List Token → List Char → Prop where
  | nil {position : Nat} {gap : List Char} (hgap : AllBlank gap) : Laid position [] gap
  | cons {position : Nat} {gap text : List Char} {token : Token} {tokens : List Token}
      (hgap : AllBlank gap) (hposition : token.position = position + byteLength gap)
      (h : Laid token.stop tokens text) :
      Laid position (token :: tokens) (gap ++ (token.text.toList ++ text))

namespace Laid

variable {position : Nat} {tokens more : List Token} {text : List Char}

theorem spaced (h : Laid position tokens text) :
    Spaced (tokens.map fun token => token.text.toList) text := by
  induction h with
  | nil hgap => exact .nil hgap
  | cons hgap hposition h ih => exact .cons hgap ih

/-- The first tokens make up the beginning of a text that ends after the last of them. -/
theorem exists_beginning (h : Laid position (tokens ++ more) text) :
    ∃ beginning rest, text = beginning ++ rest ∧ Laid position tokens beginning ∧
      (tokens = [] → beginning = []) ∧
      ∀ last ∈ tokens.getLast?, last.stop = position + byteLength beginning := by
  induction tokens generalizing position text with
  | nil => exact ⟨[], text, rfl, .nil .nil, fun _ => rfl, by simp⟩
  | cons token tokens ih =>
    cases h with
    | @cons _ gap text _ _ hgap hposition h =>
      obtain ⟨beginning, rest, rfl, hbeginning, hnil, hstop⟩ := ih h
      have hend : token.stop + byteLength beginning =
          position + byteLength (gap ++ (token.text.toList ++ beginning)) := by
        rw [Token.stop, hposition]
        simp only [byteLength_append, Nat.add_assoc]
      refine ⟨gap ++ (token.text.toList ++ beginning), rest, by simp,
        .cons hgap hposition hbeginning, fun hnone => absurd hnone (List.cons_ne_nil _ _),
        fun last hlast => ?_⟩
      rw [← hend]
      cases tokens with
      | nil =>
        obtain rfl : token = last := Option.some.inj hlast
        rw [hnil rfl]
        rfl
      | cons second tokens => exact hstop last (by rwa [List.getLast?_cons_cons] at hlast)

end Laid

/-- A token that was found in a parameter block before the end of a definition. -/
structure InDefinition (token : Token) : Prop where
  found : ∃ rest, Lexeme.next? .block (token.text.toList ++ rest) =
    some (token.kind, token.text.toList.length)
  within : token.kind ≠ .comma ∧ token.kind ≠ .colon ∧ token.kind ≠ .closeBrace

theorem scanFrom_of_allBlank {mode : LexicalMode} {cursor : Cursor} (h : AllBlank cursor.rest) :
    scanFrom mode cursor = ⟨[], none⟩ :=
  scanFrom_of_finished (scanStep_eq_finished_iff.mpr h)

theorem allBlank_of_scanFrom {mode : LexicalMode} {cursor : Cursor}
    (h : scanFrom mode cursor = ⟨[], none⟩) : AllBlank cursor.rest := by
  cases hstep : scanStep mode cursor with
  | finished => exact scanStep_eq_finished_iff.mp hstep
  | stray character =>
    rw [scanFrom_of_stray hstep] at h
    cases h
  | token token mode' next =>
    rw [scanFrom_of_token hstep] at h
    cases h

theorem kind_of_not_mem {c : Char} {kind : TokenKind} (hkind : TokenKind.punctuation? c = some kind)
    (hc : c ∉ [',', ':', '\x7b', '\x7d']) :
    kind ≠ .comma ∧ kind ≠ .colon ∧ kind ≠ .closeBrace := by
  simp only [List.mem_cons, List.not_mem_nil, or_false, not_or] at hc
  obtain ⟨hcomma, hcolon, -, hclose⟩ := hc
  refine ⟨?_, ?_, ?_⟩ <;> rintro rfl
  · exact hcomma (TokenKind.punctuation?_inj hkind rfl)
  · exact hcolon (TokenKind.punctuation?_inj hkind rfl)
  · exact hclose (TokenKind.punctuation?_inj hkind rfl)

/-- Up to the closing brace at the end of a text there are tokens with blanks between them. -/
theorem exists_laid_of_scanFrom {text : List Char} {cursor : Cursor} {tokens : List Token}
    (hrest : cursor.rest = text ++ ['\x7d']) (htext : ∀ c ∈ text, c ∉ [',', ':', '\x7b', '\x7d'])
    (h : scanFrom .block cursor = ⟨tokens, none⟩) :
    ∃ body close, tokens = body ++ [close] ∧ close.kind = .closeBrace ∧
      Laid cursor.position body text ∧ ∀ token ∈ body, InDefinition token := by
  have hbrace : '\x7d' ∉ text := fun hmem => htext _ hmem (by simp)
  induction tokens generalizing text cursor with
  | nil =>
    have hblank := allBlank_of_scanFrom h '\x7d' (by simp [hrest])
    cases hblank
  | cons token tokens ih =>
    obtain ⟨kind, gap, piece, trailing, next, hsplit, hlexes, rfl, hposition, -, hscan⟩ :=
      exists_lexes_of_scanFrom_cons h
    cases hlexes with
    | lexeme hmode hgap hne hhead hnext =>
      have hgap' : '\x7d' ∉ gap := by
        intro hmem
        cases hgap _ hmem
      rw [hrest, List.append_nil] at hsplit
      by_cases hpiece : '\x7d' ∈ piece
      · -- the closing brace is all of its token, and all of the text before it is blank
        obtain ⟨c, rfl, hkind⟩ | ⟨hunmarked, -⟩ := Lexeme.eq_mark_or_unmarked_of_next? hnext
        · obtain rfl : '\x7d' = c := List.mem_singleton.mp hpiece
          cases hkind
          rw [List.append_assoc, List.singleton_append] at hsplit
          obtain ⟨rfl, -, hend⟩ :=
            (List.append_cons_inj_of_notMem hbrace List.not_mem_nil).mp hsplit
          rw [scanFrom_of_allBlank (hend ▸ .nil)] at hscan
          cases hscan
          exact ⟨[], _, rfl, rfl, .nil hgap, List.forall_mem_nil _⟩
        · cases hunmarked _ hpiece
      · obtain ⟨more, hmore, -⟩ | ⟨more, rfl, hmore⟩ := append_cons_eq_append_iff.mp hsplit
        · exact absurd (hmore ▸ by simp) (List.not_mem_append hgap' hpiece)
        · have hwithin : kind ≠ .comma ∧ kind ≠ .colon ∧ kind ≠ .closeBrace := by
            obtain ⟨c, rfl, hkind⟩ | ⟨-, rfl | rfl⟩ := Lexeme.eq_mark_or_unmarked_of_next? hnext
            · exact kind_of_not_mem hkind (htext c (by simp))
            · decide
            · decide
          rw [LexicalMode.next_block hwithin.2.2 hwithin.2.1] at hscan
          have htext' : ∀ c ∈ more, c ∉ [',', ':', '\x7b', '\x7d'] :=
            fun c hc => htext c (List.mem_append_right _ hc)
          obtain ⟨body, close, rfl, hclose, hlaid, hbody⟩ :=
            ih hmore htext' hscan (fun hmem => hbrace (List.mem_append_right _ hmem))
          let token : Token := ⟨kind, .ofList piece, cursor.position + byteLength gap,
            cursor.column + gap.length⟩
          have hstop : next.position = token.stop := by
            rw [hposition, Token.stop, String.toList_ofList, List.append_nil, byteLength_append,
              Nat.add_assoc]
          rw [hstop] at hlaid
          have hpieces : Laid cursor.position (token :: body)
              (gap ++ (token.text.toList ++ more)) := .cons hgap rfl hlaid
          rw [String.toList_ofList, ← List.append_assoc] at hpieces
          refine ⟨token :: body, close, rfl, hclose, hpieces, List.forall_mem_cons.mpr
            ⟨⟨⟨next.rest, ?_⟩, hwithin⟩, hbody⟩⟩
          rw [String.toList_ofList]
          exact hnext

end Found

section Separate

/-- Numbers, slashes and marks of fixed parameters, and the tokens that they are. No number follows
    another one, and the mark is the last piece. -/
inductive Separate : List (List Char) → List (TokenKind × String) → Prop where
  | nil : Separate [] []
  | flag : Separate [['F']] [(.identifier, "F")]
  | slash {pieces : List (List Char)} {lexemes : List (TokenKind × String)}
      (h : Separate pieces lexemes) : Separate (['/'] :: pieces) ((.slash, "/") :: lexemes)
  | number {text : List Char} {pieces : List (List Char)} {lexemes : List (TokenKind × String)}
      (htext : NumeralText text) (hnext : ∀ piece ∈ pieces.head?, piece = ['/'] ∨ piece = ['F'])
      (h : Separate pieces lexemes) :
      Separate (text :: pieces) ((.number, String.ofList text) :: lexemes)

variable {pieces : List (List Char)} {lexemes : List (TokenKind × String)} {text rest : List Char}

theorem NumeralText.ne_nil (h : NumeralText text) : text ≠ [] := by
  cases h with
  | decimal hsign h =>
    obtain ⟨c, more, rfl, -⟩ := h.exists_cons
    simp
  | infinity => simp

theorem Separate.ne_nil (h : Separate pieces lexemes) : ∀ piece ∈ pieces, piece ≠ [] := by
  induction h with
  | nil => exact List.forall_mem_nil _
  | flag => exact List.forall_mem_singleton.mpr (List.cons_ne_nil _ _)
  | slash h ih => exact List.forall_mem_cons.mpr ⟨List.cons_ne_nil _ _, ih⟩
  | number htext hnext h ih => exact List.forall_mem_cons.mpr ⟨htext.ne_nil, ih⟩

theorem Scans.blank {mode : LexicalMode} {gap : List Char} (hgap : AllBlank gap) :
    Scans mode gap rest [] mode := by
  intro cursor hrest
  exact ⟨[], _, rfl, rfl, scanFrom_of_gap hrest hgap⟩

theorem endsDecimal_of_isBlank {c : Char} (h : isBlank c = true) (hrest : rest.head? = some c) :
    Lexeme.endsDecimal rest = true := by
  have hdigit : c.isDigit = false := by
    by_contra hc
    rw [isBlank_of_isDigit (by simpa using hc)] at h
    cases h
  have hmark : Lexeme.isExponentMark c = false := by
    by_contra hc
    rw [Lexeme.isBlank_of_isExponentMark (by simpa using hc)] at h
    cases h
  have hpoint : c ≠ '.' := by
    rintro rfl
    cases h
  simp [Lexeme.endsDecimal, hrest, hdigit, hmark, hpoint]

/-- What is written like this is found, if no infinity is one word with the mark after it. -/
theorem Separate.scans (h : Separate pieces lexemes) (hspaced : Spaced pieces text)
    (hword : ¬ ['f', 'F'] <:+: text) : Scans .block text ('\x7d' :: rest) lexemes .block := by
  induction h generalizing text with
  | nil =>
    cases hspaced with
    | nil hgap => exact .blank hgap
  | flag =>
    cases hspaced with
    | @cons gap _ text _ hgap htext =>
      cases htext with
      | nil htrailing =>
        have hhead : (text ++ '\x7d' :: rest).head?.any Lexeme.isIdentifierChar = false := by
          cases text with
          | nil => rfl
          | cons c text => exact Lexeme.isIdentifierChar_of_isBlank (htrailing c List.mem_cons_self)
        have hname : Scans .block "F".toList (text ++ '\x7d' :: rest) [(.identifier, "F")] .block :=
          .name (by decide) hhead
        exact (Scans.blank hgap).append (hname.append (.blank htrailing))
  | slash h ih =>
    cases hspaced with
    | cons hgap htext =>
      have hslash := ih htext fun hoccurs =>
        hword (hoccurs.trans ((List.suffix_append _ _).trans (List.suffix_append _ _)).isInfix)
      exact (Scans.blank hgap).append ((Scans.mark (by decide) rfl).append hslash)
  | @number number pieces lexemes hnumber hnext h ih =>
    cases hspaced with
    | @cons gap _ text _ hgap htext =>
      have hothers := ih htext fun hoccurs =>
        hword (hoccurs.trans ((List.suffix_append _ _).trans (List.suffix_append _ _)).isInfix)
      -- a blank, a slash, the mark or the closing brace comes next
      have hhead : (∃ c, (text ++ '\x7d' :: rest).head? = some c ∧ isBlank c = true) ∨
          ∃ c ∈ ['/', 'F', '\x7d'], (text ++ '\x7d' :: rest).head? = some c := by
        refine (htext.head?_cases h.ne_nil).imp_right fun hpieces => ?_
        cases pieces with
        | nil => exact ⟨'\x7d', by simp, hpieces⟩
        | cons piece pieces =>
          obtain rfl | rfl := hnext piece rfl
          · exact ⟨'/', by simp, hpieces⟩
          · exact ⟨'F', by simp, hpieces⟩
      refine (Scans.blank hgap).append (Scans.append (hnumber.scans ?_ fun hlast => ?_) hothers)
      · obtain ⟨c, hc, hblank⟩ | ⟨c, hmem, hc⟩ := hhead
        · exact endsDecimal_of_isBlank hblank hc
        · simp only [List.mem_cons, List.not_mem_nil, or_false] at hmem
          obtain rfl | rfl | rfl := hmem <;> rw [Lexeme.endsDecimal, hc] <;> rfl
      · obtain ⟨c, hc, hblank⟩ | ⟨c, hmem, hc⟩ := hhead
        · rw [hc, Option.any_some]
          exact Lexeme.isIdentifierChar_of_isBlank hblank
        · simp only [List.mem_cons, List.not_mem_nil, or_false] at hmem
          obtain rfl | rfl | rfl := hmem
          · rw [hc]
            rfl
          · refine absurd ?_ hword
            cases text with
            | nil => cases hc
            | cons c text =>
              obtain rfl : c = 'F' := by simpa using hc
              obtain ⟨before, rfl⟩ := List.getLast?_eq_some_iff.mp hlast
              exact ⟨gap ++ before, text, by simp⟩
          · rw [hc]
            rfl

end Separate

end CircuitCode
