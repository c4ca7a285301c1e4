import CircuitCode.Proofs.Token.Cut

/-!
# Texts that end after a token

The part of a text up to the end of one of its tokens has the tokens of the text up to there, at the
same places (`Truncated.exists_scanFrom`). Only an empty label is no token at the end of a text.
-/

namespace CircuitCode

open Lexeme

/-- The text at a place goes on behind `text`, which ends where the last of the tokens `before`
    does. -/
structure Truncated (mode : LexicalMode) (cursor : Cursor) (text rest : List Char)
    (before after : List Token) : Prop where
  split : cursor.rest = text ++ rest
  scan : scanFrom mode cursor = ⟨before ++ after, none⟩
  start : before = [] → text = []
  stop : ∀ last ∈ before.getLast?, last.stop = cursor.position + byteLength text
  symbol : ∀ token ∈ before, token.kind = .symbol → token.text ≠ "e" ∧ token.text ≠ "E"

namespace Truncated

variable {mode : LexicalMode} {cursor : Cursor} {text rest : List Char}
  {before after : List Token} {token : Token}

/-- The only token of a text. -/
theorem of_singleton (h : Truncated mode cursor text rest [token] after) :
    ∃ kind gap lexeme trailing left, text = gap ++ lexeme ∧ rest = trailing ++ left ∧
      Lexes mode kind gap lexeme trailing left ∧
      token = ⟨kind, String.ofList lexeme, cursor.position + byteLength gap,
        cursor.column + gap.length⟩ := by
  obtain ⟨kind, gap, lexeme, trailing, next, hsplit, hlexes, htoken, -, -, -⟩ :=
    exists_lexes_of_scanFrom_cons h.scan
  have hstop := h.stop token rfl
  rw [htoken, Token.stop, String.toList_ofList] at hstop
  dsimp only at hstop
  have hlength : byteLength (gap ++ lexeme) = byteLength text := by
    rw [byteLength_append]
    omega
  have happend : text ++ rest = gap ++ lexeme ++ (trailing ++ next.rest) := by
    rw [← h.split, hsplit]
    simp
  obtain ⟨more, rfl, hrest⟩ := exists_append_of_byteLength_le happend hlength.le
  rw [byteLength_append (gap ++ lexeme)] at hlength
  obtain rfl : more = [] := eq_nil_of_byteLength (by omega)
  exact ⟨kind, gap, lexeme, trailing, next.rest, by simp, hrest.symm, hlexes, htoken⟩

/-- The first token of a text that goes on, and what it goes on with. -/
theorem tail (h : Truncated mode cursor text rest (token :: before) after) (hne : before ≠ []) :
    ∃ kind gap lexeme trailing more next, text = gap ++ (lexeme ++ trailing) ++ more ∧
      Lexes mode kind gap lexeme trailing (more ++ rest) ∧
      token = ⟨kind, String.ofList lexeme, cursor.position + byteLength gap,
        cursor.column + gap.length⟩ ∧
      next.position = cursor.position + byteLength (gap ++ (lexeme ++ trailing)) ∧
      next.column = cursor.column + (gap ++ (lexeme ++ trailing)).length ∧
      Truncated (mode.next kind) next more rest before after := by
  obtain ⟨kind, gap, lexeme, trailing, next, hsplit, hlexes, htoken, hposition, hcolumn, hscan⟩ :=
    exists_lexes_of_scanFrom_cons h.scan
  obtain ⟨last, hlast⟩ := List.getLast?_isSome.mpr hne |> Option.isSome_iff_exists.mp
  have hstop : last.stop = cursor.position + byteLength text := by
    refine h.stop last ?_
    rw [List.getLast?_cons, hlast]
    rfl
  have hmem : last ∈ (scanFrom (mode.next kind) next).tokens := by
    rw [hscan]
    exact List.mem_append_left _ (List.mem_of_getLast? hlast)
  obtain ⟨_, _, -, hlastPosition, -⟩ := exists_place_of_mem_scanFrom _ _ last hmem
  have hlength : byteLength (gap ++ (lexeme ++ trailing)) ≤ byteLength text := by
    rw [Token.stop] at hstop
    omega
  obtain ⟨more, rfl, hnext⟩ := exists_append_of_byteLength_le (h.split.symm.trans hsplit) hlength
  have hend : next.position + byteLength more =
      cursor.position + byteLength (gap ++ (lexeme ++ trailing) ++ more) := by
    rw [hposition, byteLength_append (gap ++ (lexeme ++ trailing)), Nat.add_assoc]
  rw [hnext] at hlexes
  refine ⟨kind, gap, lexeme, trailing, more, next, rfl, hlexes, htoken, hposition, hcolumn,
    hnext, hscan, fun hnil => absurd hnil hne, ?_, ?_⟩
  · intro last' hlast'
    obtain rfl : last = last' := Option.some.inj (hlast.symm.trans hlast')
    rw [hend]
    exact hstop
  · exact fun token htoken => h.symbol token (List.mem_cons_of_mem _ htoken)

/-- Outside a label the first token is not empty. -/
theorem ne_nil (h : Truncated mode cursor text rest (token :: before) after)
    (hmode : mode ≠ .label) : text ≠ [] := by
  have hlexeme {kind : TokenKind} {gap lexeme trailing rest : List Char}
      (h : Lexes mode kind gap lexeme trailing rest) : lexeme ≠ [] := by
    cases h with
    | lexeme _ _ hne => exact hne
    | label => exact absurd rfl hmode
  by_cases hne : before = []
  · subst hne
    obtain ⟨kind, gap, lexeme, trailing, left, rfl, -, hlexes, -⟩ := h.of_singleton
    simp [hlexeme hlexes]
  · obtain ⟨kind, gap, lexeme, trailing, more, next, rfl, hlexes, -⟩ := h.tail hne
    simp [hlexeme hlexes]

/-- A letter that could start an exponent is one here if it is all that is left of the text. -/
theorem exponentLength_ne_zero {mark : Char} (h : Truncated mode cursor [mark] rest before after)
    (hmode : mode ≠ .label) (hmark : isExponentMark mark = true) :
    exponentLength (mark :: rest) ≠ 0 := by
  have hblank := isBlank_of_isExponentMark hmark
  have hsplit {gap more : List Char} (hgap : AllBlank gap) (h : [mark] = gap ++ more) :
      gap = [] ∧ more = [mark] := by
    cases gap with
    | nil => exact ⟨rfl, h.symm⟩
    | cons c gap =>
      obtain ⟨rfl, -⟩ := List.cons.inj h
      rw [hgap mark List.mem_cons_self] at hblank
      cases hblank
  cases before with
  | nil => cases h.start rfl
  | cons token before =>
    by_cases hne : before = []
    · subst hne
      obtain ⟨kind, gap, lexeme, trailing, left, htext, hrest, hlexes, htoken⟩ := h.of_singleton
      obtain ⟨rfl, rfl⟩ := hsplit hlexes.allBlank_gap htext
      cases hlexes with
      | label => exact absurd rfl hmode
      | lexeme _ _ _ _ hnext =>
        rw [List.nil_append] at hrest
        subst hrest
        rcases found_of_isExponentMark hmark (next?_cons_eq_some_iff.mp hnext) with
          ⟨-, rfl⟩ | ⟨-, hlength⟩
        · have hsymbol := h.symbol token List.mem_cons_self (by rw [htoken])
          rw [htoken] at hsymbol
          simp only [isExponentMark, Bool.or_eq_true, beq_iff_eq] at hmark
          rcases hmark with rfl | rfl
          · exact absurd rfl hsymbol.1
          · exact absurd rfl hsymbol.2
        · -- the letter is all of a name, so no letter comes after it
          have hword : (([mark] ++ rest).takeWhile isIdentifierChar).length = [mark].length :=
            hlength.symm
          have hstart : rest.head?.any isIdentifierStart = false :=
            any_isIdentifierStart_of_isIdentifierChar (length_takeWhile_append_eq_iff.mp hword).2
          rw [exponentLength_cons, hmark, hstart]
          exact Nat.ne_of_gt (Nat.add_pos_left Nat.one_pos _)
    · obtain ⟨kind, gap, lexeme, trailing, more, next, htext, hlexes, -, -, -, htail⟩ := h.tail hne
      rw [List.append_assoc] at htext
      obtain ⟨rfl, hmark'⟩ := hsplit hlexes.allBlank_gap htext
      clear htext
      cases hlexes with
      | label => exact absurd rfl hmode
      | lexeme _ _ hlexeme _ hnext =>
        obtain ⟨c, lexeme, rfl⟩ := List.exists_cons_of_ne_nil hlexeme
        rw [List.append_nil, List.cons_append] at hmark'
        obtain ⟨rfl, hnil⟩ := List.cons.inj hmark'
        obtain ⟨rfl, rfl⟩ := List.append_eq_nil_iff.mp hnil
        obtain ⟨token', before, rfl⟩ := List.exists_cons_of_ne_nil hne
        have hkind : mode.next kind = mode := by
          rcases found_of_isExponentMark hmark (next?_cons_eq_some_iff.mp hnext) with
            ⟨-, rfl⟩ | ⟨rfl | rfl, -⟩ <;> rfl
        rw [hkind] at htail
        exact absurd rfl (htail.ne_nil hmode)

end Truncated

/-- Only a colon leads to a label. -/
theorem Lexes.eq_colon {mode : LexicalMode} {kind : TokenKind} {gap text trailing rest : List Char}
    (h : Lexes mode kind gap text trailing rest) (hnext : mode.next kind = .label) :
    kind = .colon := by
  cases h with
  | label => cases hnext
  | lexeme hmode hgap hne hhead htext =>
    have hlabel : kind ≠ .label := by
      rintro rfl
      exact next?_ne_label htext
    cases kind <;>
      first | rfl | exact absurd rfl hlabel | exact absurd hnext hmode | cases hnext

/-- The tokens of a text that ends after the tokens `before`: all of these, apart from an empty
    label at their end. -/
inductive Keeps (mode : LexicalMode) (before : List Token) : List Token → Prop where
  | all : Keeps mode before before
  | label {kept : List Token} {label : Token} (hbefore : before = kept ++ [label])
      (hkind : label.kind = .label) (htext : label.text = "") (hmode : kept = [] → mode = .label)
      (hcolon : ∀ last ∈ kept.getLast?, last.kind = .colon) : Keeps mode before kept

theorem scanFrom_nil (mode : LexicalMode) (position column : Nat) :
    scanFrom mode ⟨[], position, column⟩ = ⟨[], none⟩ :=
  scanFrom_of_finished (scanStep_eq_finished_iff.mpr .nil)

namespace Truncated

variable {mode : LexicalMode} {cursor : Cursor} {text rest : List Char}
  {before after : List Token} {token : Token}

/-- A text that ends after its first token. -/
theorem exists_scanFrom_of_singleton (h : Truncated mode cursor text rest [token] after) :
    ∃ kept, scanFrom mode ⟨text, cursor.position, cursor.column⟩ = ⟨kept, none⟩ ∧
      Keeps mode [token] kept := by
  obtain ⟨kind, gap, lexeme, trailing, left, rfl, -, hlexes, rfl⟩ := h.of_singleton
  have hscan (h : Lexes mode kind gap lexeme [] []) :
      scanFrom mode ⟨gap ++ lexeme, cursor.position, cursor.column⟩ =
        ⟨[⟨kind, String.ofList lexeme, cursor.position + byteLength gap,
          cursor.column + gap.length⟩], none⟩ := by
    rw [scanFrom_of_token (h.scanStep_eq (by simp)), scanFrom_nil]
  cases hlexes with
  | lexeme hmode hgap hne hhead hnext =>
    refine ⟨_, hscan (.lexeme hmode hgap hne hhead ?_), .all⟩
    exact next?_of_follows hnext (.inl rfl) fun _ _ => rfl
  | label hgap htrimmed hbrace htrailing hempty hne hrest =>
    by_cases hlexeme : lexeme = []
    · subst hlexeme
      refine ⟨[], scanFrom_of_finished (scanStep_eq_finished_iff.mpr ?_),
        .label rfl rfl rfl (fun _ => rfl) nofun⟩
      rwa [List.append_nil]
    · exact ⟨_, hscan (.label hgap htrimmed hbrace .nil (fun _ => rfl) (by simpa using hlexeme)
        (.inl rfl)), .all⟩

/-- The tokens of the part of a text up to the end of one of its tokens. The induction is on the
    tokens up to there. -/
theorem exists_scanFrom (h : Truncated mode cursor text rest before after) :
    ∃ kept, scanFrom mode ⟨text, cursor.position, cursor.column⟩ = ⟨kept, none⟩ ∧
      Keeps mode before kept := by
  induction before generalizing mode cursor text with
  | nil =>
    rw [h.start rfl]
    exact ⟨[], scanFrom_nil _ _ _, .all⟩
  | cons token before ih =>
    by_cases hne : before = []
    · subst hne
      exact h.exists_scanFrom_of_singleton
    obtain ⟨kind, gap, lexeme, trailing, more, next, rfl, hlexes, htoken, hposition, hcolumn,
      htail⟩ := h.tail hne
    obtain ⟨kept, hscan, hkeeps⟩ := ih htail
    have hlexes' : Lexes mode kind gap lexeme trailing more := by
      cases hlexes with
      | lexeme hmode hgap hlexeme hhead hnext =>
        refine .lexeme hmode hgap hlexeme hhead (next?_of_follows hnext ?_ ?_)
        · by_cases hmore : more = []
          · exact .inl (by rw [hmore]; rfl)
          · exact .inr (List.head?_append_of_ne_nil _ hmore).symm
        · rintro rfl hunmarked
          have hnone := exponentLength_of_next? hnext hunmarked
          by_contra hpos
          obtain ⟨mark, more, rfl, hmark, hstart⟩ := any_head?_of_exponentLength_pos hpos
          by_cases hmore : more = []
          · subst hmore
            exact htail.exponentLength_ne_zero hmode hmark hnone
          · rw [List.cons_append, exponentLength_cons, hmark,
              List.head?_append_of_ne_nil _ hmore, hstart] at hnone
            exact absurd hnone (Nat.ne_of_gt (Nat.add_pos_left Nat.one_pos _))
      | label hgap htrimmed hbrace htrailing hempty _ hrest =>
        obtain ⟨token', before, rfl⟩ := List.exists_cons_of_ne_nil hne
        have hmore : more ≠ [] := htail.ne_nil (by decide)
        obtain ⟨c, more, rfl⟩ := List.exists_cons_of_ne_nil hmore
        exact .label hgap htrimmed hbrace htrailing hempty (by simp) (by simpa using hrest)
    refine ⟨token :: kept, ?_, ?_⟩
    · rw [scanFrom_of_token (hlexes'.scanStep_eq (by simp)), htoken]
      dsimp only
      rw [Nat.add_assoc cursor.position, Nat.add_assoc cursor.column, ← byteLength_append,
        ← List.length_append, ← hposition, ← hcolumn, hscan]
    · cases hkeeps with
      | all => exact .all
      | @label _ label hbefore hkind htext hmode hcolon =>
        refine .label (by rw [hbefore, List.cons_append]) hkind htext nofun ?_
        intro last hlast
        cases kept with
        | nil =>
          obtain rfl : token = last := Option.some.inj hlast
          rw [htoken]
          exact hlexes.eq_colon (hmode rfl)
        | cons first kept =>
          rw [List.getLast?_cons_cons] at hlast
          exact hcolon last hlast

end Truncated

end CircuitCode
