import CircuitCode.Proofs.Token.Lookahead
import CircuitCode.Proofs.Token.Lossless

/-!
# Cutting a text between two tokens

A text is cut in two after some of its tokens (`Cut`). If nothing can continue the last token
before the cut (`Token.Final`), the first part is scanned into the same tokens before any other text
(`Cut.scans`), and the second part is scanned into the tokens after the cut (`Cut.exists_scanFrom`).
-/

namespace CircuitCode

/-- What follows does not continue the token, apart from lower case letters after a symbol, and the
    token could not be taken in by a number before it. -/
structure Token.Final (token : Token) : Prop where
  number : token.kind ≠ .number
  identifier : token.kind ≠ .identifier
  label : token.kind ≠ .label
  symbol : token.kind = .symbol → token.text ≠ "e" ∧ token.text ≠ "E"

/-- The text at a place is cut in two where the tokens `before` end and the tokens `after` are still
    to come. -/
structure Cut (mode : LexicalMode) (cursor : Cursor) (text rest : List Char)
    (before after : List Token) : Prop where
  split : cursor.rest = text ++ rest
  scan : scanFrom mode cursor = ⟨before ++ after, none⟩
  stops : ∀ token ∈ before, token.stop ≤ cursor.position + byteLength text
  starts : ∀ token ∈ after, cursor.position + byteLength text ≤ token.position
  final : ∀ token ∈ before.getLast?, token.Final

/-- Of two ways to split a text, the longer first part starts with the shorter one. -/
theorem exists_append_of_byteLength_le {text rest text' rest' : List Char}
    (happend : text ++ rest = text' ++ rest') (hlength : byteLength text' ≤ byteLength text) :
    ∃ more, text = text' ++ more ∧ rest' = more ++ rest := by
  rcases List.append_eq_append_iff.mp happend with ⟨more, rfl, rfl⟩ | ⟨more, rfl, rfl⟩
  · rw [byteLength_append] at hlength
    obtain rfl : more = [] := eq_nil_of_byteLength (by omega)
    exact ⟨[], by simp, rfl⟩
  · exact ⟨more, rfl, rfl⟩

section Steps

variable {mode : LexicalMode} {cursor : Cursor}

/-- Blanks at a place are passed over. -/
theorem scanFrom_of_gap {gap rest : List Char} (hrest : cursor.rest = gap ++ rest)
    (hgap : AllBlank gap) :
    scanFrom mode cursor =
      scanFrom mode ⟨rest, cursor.position + byteLength gap, cursor.column + gap.length⟩ := by
  obtain ⟨gap', start, rfl, hgap', hstart⟩ := exists_gap rest
  rw [← List.append_assoc] at hrest
  have hskip : cursor.skipBlanks = Cursor.skipBlanks
      ⟨gap' ++ start, cursor.position + byteLength gap, cursor.column + gap.length⟩ := by
    rw [Cursor.skipBlanks_of_rest hrest (hgap.append hgap') hstart,
      Cursor.skipBlanks_of_rest rfl hgap' hstart, byteLength_append, List.length_append]
    simp only [Nat.add_assoc]
  have hstep : scanStep mode cursor = scanStep mode
      ⟨gap' ++ start, cursor.position + byteLength gap, cursor.column + gap.length⟩ := by
    unfold scanStep scanLabel scanToken
    rw [hskip]
  rw [scanFrom, scanFrom]
  split <;> split <;> simp_all

/-- A scan that finds a token goes on behind it. -/
theorem exists_lexes_of_scanFrom_cons {token : Token} {tokens : List Token}
    {stray : Option StrayCharacter} (h : scanFrom mode cursor = ⟨token :: tokens, stray⟩) :
    ∃ kind gap text trailing next, cursor.rest = gap ++ (text ++ trailing) ++ next.rest ∧
      Lexes mode kind gap text trailing next.rest ∧
      token = ⟨kind, String.ofList text, cursor.position + byteLength gap,
        cursor.column + gap.length⟩ ∧
      next.position = cursor.position + byteLength (gap ++ (text ++ trailing)) ∧
      next.column = cursor.column + (gap ++ (text ++ trailing)).length ∧
      scanFrom (mode.next kind) next = ⟨tokens, stray⟩ := by
  cases hstep : scanStep mode cursor with
  | finished => rw [scanFrom_of_finished hstep] at h; cases h
  | stray stray => rw [scanFrom_of_stray hstep] at h; cases h
  | token first mode' next =>
    rw [scanFrom_of_token hstep, Scan.mk.injEq, List.cons.injEq] at h
    obtain ⟨⟨rfl, rfl⟩, rfl⟩ := h
    obtain ⟨kind, gap, text, trailing, left, hsplit, hlexes, rfl, rfl, rfl⟩ :=
      scanStep_eq_token_iff.mp hstep
    refine ⟨kind, gap, text, trailing, _, ?_, hlexes, rfl, ?_, ?_, rfl⟩
    · rw [hsplit]
      simp
    · rw [byteLength_append gap]
      exact Nat.add_assoc _ _ _
    · simp only [List.length_append, Nat.add_assoc]

/-- Only a label may be empty. -/
theorem kind_of_mem_scanFrom_of_empty {token : Token}
    (htoken : token ∈ (scanFrom mode cursor).tokens) (hempty : token.text.toList = []) :
    token.kind = .label := by
  fun_induction scanFrom mode cursor with
  | case1 => cases htoken
  | case2 => cases htoken
  | case3 mode cursor first mode' next hstep rest ih =>
    rcases List.mem_cons.mp htoken with rfl | htoken
    · obtain ⟨kind, gap, text, trailing, left, -, hlexes, -, rfl, -⟩ :=
        scanStep_eq_token_iff.mp hstep
      rw [String.toList_ofList] at hempty
      cases hlexes with
      | lexeme _ _ hne => exact absurd hempty hne
      | label => rfl
    · exact ih htoken

end Steps

/-- What is read as a token is scanned into it. -/
theorem Lexes.scans {mode : LexicalMode} {kind : TokenKind} {gap text trailing rest : List Char}
    (h : Lexes mode kind gap text trailing rest) :
    Scans mode (gap ++ (text ++ trailing)) rest [(kind, String.ofList text)] (mode.next kind) := by
  intro cursor hrest
  rw [List.append_assoc, List.append_assoc] at hrest
  exact ⟨[_], _, rfl, rfl, scanFrom_of_token (h.scanStep_eq hrest)⟩

/-- A token stays the same where the text after it changes from behind some characters on. If there
    are none of these, nothing may continue the token, and no exponent may come about. -/
theorem Lexes.of_cut {mode : LexicalMode} {kind : TokenKind}
    {gap text trailing more rest rest' : List Char}
    (h : Lexes mode kind gap text trailing (more ++ rest))
    (hfinal : more = [] → kind ≠ .number ∧ kind ≠ .identifier ∧ kind ≠ .label)
    (hnone : kind = .number → mode ≠ .label → more ≠ [] →
      Lexeme.exponentLength (more ++ rest) = 0 → Lexeme.exponentLength (more ++ rest') = 0)
    (hlower : rest'.head?.any Char.isLower = false) :
    Lexes mode kind gap text trailing (more ++ rest') := by
  cases h with
  | lexeme hmode hgap hne hhead hnext =>
    refine .lexeme hmode hgap hne hhead ?_
    by_cases hmore : more = []
    · subst hmore
      obtain ⟨hnumber, hidentifier, -⟩ := hfinal rfl
      obtain ⟨c, tail, rfl⟩ := List.exists_cons_of_ne_nil hne
      rw [List.cons_append, Lexeme.next?_cons_eq_some_iff] at hnext ⊢
      cases hnext with
      | mark hkind hlength => exact .mark hkind hlength
      | symbol hmark hstart hkind hlength =>
        rw [List.length_cons, Nat.add_comm, Nat.add_left_cancel_iff, eq_comm] at hlength
        have hall := (length_takeWhile_append_eq_iff.mp hlength).1
        refine .symbol hmark hstart hkind ?_
        rw [List.length_cons, Nat.add_comm, List.nil_append,
          length_takeWhile_append_eq_iff.mpr ⟨hall, hlower⟩]
      | number _ _ _ hkind => exact absurd hkind hnumber
      | word _ _ _ _ hkind =>
        split at hkind
        · exact absurd hkind hnumber
        · exact absurd hkind hidentifier
    · have hfollows : Follows (more ++ rest) (more ++ rest') := by
        right
        rw [List.head?_append_of_ne_nil _ hmore, List.head?_append_of_ne_nil _ hmore]
      refine Lexeme.next?_of_follows hnext hfollows ?_
      rintro rfl hunmarked
      exact hnone rfl hmode hmore (Lexeme.exponentLength_of_next? hnext hunmarked)
  | label hgap htrimmed hbrace htrailing hempty hne hrest =>
    have hmore : more ≠ [] := fun hnil => (hfinal hnil).2.2 rfl
    obtain ⟨c, more, rfl⟩ := List.exists_cons_of_ne_nil hmore
    exact .label hgap htrimmed hbrace htrailing hempty (by simp) (by simpa using hrest)

namespace Cut

open Lexeme

variable {mode : LexicalMode} {cursor : Cursor} {text rest rest' : List Char}
  {before after : List Token} {token : Token}

/-- A text may be cut at its end. -/
theorem atEnd {tokens : List Token} (hscan : scanFrom mode cursor = ⟨tokens, none⟩)
    (hfinal : ∀ token ∈ tokens.getLast?, token.Final) :
    Cut mode cursor cursor.rest [] tokens [] where
  split := (List.append_nil _).symm
  scan := by rw [hscan, List.append_nil]
  stops := by
    intro token htoken
    have hmem : token ∈ (scanFrom mode cursor).tokens := by rwa [hscan]
    obtain ⟨before, after, hrest, hposition, -⟩ :=
      exists_place_of_mem_scanFrom mode cursor token hmem
    rw [Token.stop, hrest, hposition, byteLength_append, byteLength_append]
    omega
  starts := nofun
  final := hfinal

/-- Without tokens there is nothing but blanks before the cut. -/
theorem allBlank (h : Cut mode cursor text rest [] after) : AllBlank text := by
  intro c hc
  obtain ⟨left, right, rfl⟩ := List.append_of_mem hc
  have hrest := h.split
  rw [List.append_assoc, List.cons_append] at hrest
  refine isBlank_of_uncovered mode cursor left c _ hrest ?_ ?_
  · intro token htoken hcovers
    rw [h.scan] at htoken
    have hstart := h.starts token htoken
    have hc := c.utf8Size_pos
    have hposition := hcovers.1
    rw [byteLength_append, byteLength_cons] at hstart
    omega
  · rw [h.scan]
    exact nofun

/-- No text, no tokens before the cut. -/
theorem eq_nil (h : Cut mode cursor [] rest before after) : before = [] := by
  have hlabel : ∀ token ∈ before, token.kind = .label := by
    intro token htoken
    have hmem : token ∈ (scanFrom mode cursor).tokens := by
      rw [h.scan]
      exact List.mem_append_left _ htoken
    obtain ⟨_, _, -, hposition, -⟩ := exists_place_of_mem_scanFrom mode cursor token hmem
    have hstop := h.stops token htoken
    rw [Token.stop, hposition] at hstop
    have hnil : byteLength ([] : List Char) = 0 := rfl
    exact kind_of_mem_scanFrom_of_empty hmem (eq_nil_of_byteLength (by omega))
  cases hlast : before.getLast? with
  | none => exact List.getLast?_eq_none_iff.mp hlast
  | some token =>
    have hmem := List.mem_of_getLast? hlast
    exact absurd (hlabel token hmem) (h.final token hlast).label

/-- The first token before the cut ends before it, with the blanks that belong to no token. There
    are such blanks after a label only, and then another token follows. -/
theorem byteLength_le {kind : TokenKind} {gap lexeme trailing : List Char} {next : Cursor}
    (h : Cut mode cursor text rest (token :: before) after)
    (hlexes : Lexes mode kind gap lexeme trailing next.rest)
    (htoken : token = ⟨kind, String.ofList lexeme, cursor.position + byteLength gap,
      cursor.column + gap.length⟩)
    (hposition : next.position = cursor.position + byteLength (gap ++ (lexeme ++ trailing)))
    (hscan : scanFrom (mode.next kind) next = ⟨before ++ after, none⟩) :
    byteLength (gap ++ (lexeme ++ trailing)) ≤ byteLength text := by
  subst htoken
  cases before with
  | nil =>
    have hstop := h.stops _ List.mem_cons_self
    have hfinal : Token.Final _ := h.final _ rfl
    rw [Token.stop, String.toList_ofList] at hstop
    dsimp only at hstop
    cases hlexes with
    | lexeme =>
      rw [List.append_nil, byteLength_append]
      omega
    | label => exact absurd rfl hfinal.label
  | cons second before =>
    have hmem : second ∈ (scanFrom (mode.next kind) next).tokens := by
      rw [hscan]
      exact List.mem_cons_self
    obtain ⟨_, _, -, hsecond, -⟩ := exists_place_of_mem_scanFrom _ _ second hmem
    have hstop := h.stops second (by simp)
    rw [Token.stop, hsecond, hposition] at hstop
    omega

/-- The first token before the cut, and the cut as it is seen from behind this token. -/
theorem tail (h : Cut mode cursor text rest (token :: before) after) :
    ∃ kind gap lexeme trailing more next, text = gap ++ (lexeme ++ trailing) ++ more ∧
      Lexes mode kind gap lexeme trailing (more ++ rest) ∧
      token.lexeme = (kind, String.ofList lexeme) ∧
      next.position = cursor.position + byteLength (gap ++ (lexeme ++ trailing)) ∧
      Cut (mode.next kind) next more rest before after := by
  obtain ⟨kind, gap, lexeme, trailing, next, hsplit, hlexes, htoken, hposition, -, hscan⟩ :=
    exists_lexes_of_scanFrom_cons h.scan
  have hlength := h.byteLength_le hlexes htoken hposition hscan
  obtain ⟨more, rfl, hnext⟩ := exists_append_of_byteLength_le (h.split.symm.trans hsplit) hlength
  have hend : next.position + byteLength more =
      cursor.position + byteLength (gap ++ (lexeme ++ trailing) ++ more) := by
    rw [hposition, byteLength_append (gap ++ (lexeme ++ trailing)), Nat.add_assoc]
  rw [hnext] at hlexes
  refine ⟨kind, gap, lexeme, trailing, more, next, rfl, hlexes, by rw [htoken]; rfl, hposition,
    hnext, hscan, ?_, ?_, ?_⟩
  · intro token htoken
    rw [hend]
    exact h.stops token (List.mem_cons_of_mem _ htoken)
  · intro token htoken
    rw [hend]
    exact h.starts token htoken
  · intro token htoken
    refine h.final token ?_
    rw [List.getLast?_cons, Option.mem_def.mp htoken]
    rfl

/-- A letter that could start an exponent is no final token, so it is not all that comes before the
    cut. -/
theorem ne_exponentMark {mark : Char} (h : Cut mode cursor [mark] rest before after)
    (hmode : mode ≠ .label) : isExponentMark mark = false := by
  by_contra hmark
  rw [Bool.not_eq_false] at hmark
  have hblank := isBlank_of_isExponentMark hmark
  cases before with
  | nil =>
    have hall := h.allBlank mark List.mem_cons_self
    rw [hblank] at hall
    cases hall
  | cons token before =>
    obtain ⟨kind, gap, lexeme, trailing, more, next, hsplit, hlexes, htoken, -, htail⟩ := h.tail
    cases hlexes with
    | label => exact absurd rfl hmode
    | lexeme _ hgap hne _ hnext =>
      obtain ⟨c, lexeme, rfl⟩ := List.exists_cons_of_ne_nil hne
      obtain rfl : gap = [] := by
        refine hgap.eq_nil_of_head? ?_
        cases gap with
        | nil => rfl
        | cons d gap =>
          obtain ⟨rfl, -⟩ := List.cons.inj hsplit
          exact hblank
      simp only [List.nil_append, List.append_nil, List.cons_append, List.cons.injEq,
        List.nil_eq, List.append_eq_nil_iff] at hsplit
      obtain ⟨rfl, rfl, rfl⟩ := hsplit
      obtain rfl := htail.eq_nil
      have hfinal := h.final token rfl
      have hkind : token.kind = kind := congrArg Prod.fst htoken
      have htext : token.text = String.ofList [mark] := congrArg Prod.snd htoken
      rw [List.cons_append, next?_cons_eq_some_iff] at hnext
      rcases found_of_isExponentMark hmark hnext with ⟨-, rfl⟩ | ⟨rfl | rfl, -⟩
      · have hsymbol := hfinal.symbol hkind
        rw [htext] at hsymbol
        simp only [isExponentMark, Bool.or_eq_true, beq_iff_eq] at hmark
        rcases hmark with rfl | rfl
        · exact hsymbol.1 rfl
        · exact hsymbol.2 rfl
      · exact hfinal.number hkind
      · exact hfinal.identifier hkind

/-- No exponent comes about where something else follows the cut. -/
theorem exponentLength_eq_zero (h : Cut mode cursor text rest before after) (hmode : mode ≠ .label)
    (hne : text ≠ []) (hnone : exponentLength (text ++ rest) = 0) (rest' : List Char) :
    exponentLength (text ++ rest') = 0 := by
  obtain ⟨mark, text, rfl⟩ := List.exists_cons_of_ne_nil hne
  rw [List.cons_append, exponentLength_cons] at hnone ⊢
  by_cases htext : text = []
  · subst htext
    rw [h.ne_exponentMark hmode]
    rfl
  · rw [List.head?_append_of_ne_nil _ htext] at hnone ⊢
    split at hnone
    · omega
    · next hmark => rw [if_neg hmark]

/-- The tokens before the cut are those of the first part, whatever follows it. The induction is on
    these tokens. -/
theorem scans (h : Cut mode cursor text rest before after)
    (hlower : rest'.head?.any Char.isLower = false) :
    Scans mode text rest' (before.map Token.lexeme) (mode.nextAll before) := by
  induction before generalizing mode cursor text with
  | nil =>
    intro cursor' hrest'
    exact ⟨[], _, rfl, rfl, scanFrom_of_gap hrest' h.allBlank⟩
  | cons token before ih =>
    obtain ⟨kind, gap, lexeme, trailing, more, next, rfl, hlexes, htoken, -, htail⟩ := h.tail
    have hkind : token.kind = kind := congrArg Prod.fst htoken
    have hlexes' : Lexes mode kind gap lexeme trailing (more ++ rest') := by
      refine hlexes.of_cut ?_ ?_ hlower
      · rintro rfl
        obtain rfl := htail.eq_nil
        have hfinal := h.final token rfl
        rw [← hkind]
        exact ⟨hfinal.number, hfinal.identifier, hfinal.label⟩
      · rintro rfl hmode hmore hnone
        exact htail.exponentLength_eq_zero hmode hmore hnone rest'
    have hothers := ih htail
    rw [← hkind] at hothers
    rw [List.map_cons, htoken]
    refine Scans.cons ?_ hothers
    rw [hkind]
    exact hlexes'.scans

/-- The tokens after the cut are those of the second part. -/
theorem exists_scanFrom (h : Cut mode cursor text rest before after) :
    ∃ column, scanFrom (mode.nextAll before) ⟨rest, cursor.position + byteLength text, column⟩ =
      ⟨after, none⟩ := by
  induction before generalizing mode cursor text with
  | nil => exact ⟨_, (scanFrom_of_gap h.split h.allBlank).symm.trans h.scan⟩
  | cons token before ih =>
    obtain ⟨kind, gap, lexeme, trailing, more, next, rfl, -, htoken, hposition, htail⟩ := h.tail
    have hkind : token.kind = kind := congrArg Prod.fst htoken
    obtain ⟨column, hscan⟩ := ih htail
    refine ⟨column, ?_⟩
    rw [byteLength_append, ← Nat.add_assoc, ← hposition, ← hscan, ← hkind]
    rfl

end Cut

end CircuitCode
