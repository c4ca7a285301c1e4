import CircuitCode.Proofs.Token.Scan

/-!
# What one step of the scanner finds

The three outcomes of `scanStep` in terms of the text that is still to be read: it is blank up to
its end, or a token follows the blanks (`Lexes`), or a character with which no token starts.
-/

namespace CircuitCode

/-- All characters of a text are blank. -/
def AllBlank (text : List Char) : Prop := ∀ c ∈ text, isBlank c = true

namespace AllBlank

variable {text text' : List Char}

theorem nil : AllBlank [] := nofun

theorem append (h : AllBlank text) (h' : AllBlank text') : AllBlank (text ++ text') :=
  List.forall_mem_append.mpr ⟨h, h'⟩

theorem of_append_right (h : AllBlank (text ++ text')) : AllBlank text' :=
  (List.forall_mem_append.mp h).2

/-- A blank text does not start with anything else. -/
theorem eq_nil_of_head? (h : AllBlank text) (hhead : text.head?.any isBlank = false) :
    text = [] := by
  cases text with
  | nil => rfl
  | cons c text =>
    have hc : isBlank c = true := h c List.mem_cons_self
    rw [List.head?_cons, Option.any_some, hc] at hhead
    cases hhead

end AllBlank

theorem Cursor.rest_skipBlanks_eq (cursor : Cursor) :
    cursor.skipBlanks.rest = cursor.rest.dropWhile isBlank :=
  drop_length_takeWhile isBlank cursor.rest

/-- The place after a text that comes next. -/
theorem Cursor.advance_of_rest {cursor : Cursor} {text rest : List Char}
    (h : cursor.rest = text ++ rest) :
    cursor.advance text.length =
      ⟨rest, cursor.position + byteLength text, cursor.column + text.length⟩ := by
  rw [advance, h, List.take_left, List.drop_left]

theorem Cursor.skipBlanks_of_rest {cursor : Cursor} {gap rest : List Char}
    (h : cursor.rest = gap ++ rest) (hgap : AllBlank gap) (hrest : rest.head?.any isBlank = false) :
    cursor.skipBlanks =
      ⟨rest, cursor.position + byteLength gap, cursor.column + gap.length⟩ := by
  rw [skipBlanks, h, takeWhile_append_of_head? hgap hrest, advance_of_rest h]

/-- A text starts with blanks, of which there may be none. -/
theorem exists_gap (text : List Char) :
    ∃ gap rest, text = gap ++ rest ∧ AllBlank gap ∧ rest.head?.any isBlank = false := by
  have hhead := Cursor.head?_skipBlanks ⟨text, 0, 0⟩
  rw [Cursor.rest_skipBlanks_eq] at hhead
  exact ⟨_, _, List.takeWhile_append_dropWhile.symm, fun c hc => List.mem_takeWhile_imp hc, hhead⟩

/-- A text ends with blanks, of which there may be none. -/
theorem exists_trailing (text : List Char) :
    ∃ trailing, text = trimEnd text ++ trailing ∧ AllBlank trailing := by
  refine ⟨(text.reverse.takeWhile isBlank).reverse, ?_, ?_⟩
  · rw [trimEnd, ← List.reverse_append, List.takeWhile_append_dropWhile, List.reverse_reverse]
  · intro c hc
    exact List.mem_takeWhile_imp (List.mem_reverse.mp hc)

theorem trimEnd_append {text trailing : List Char} (h : isTrimmed text = true)
    (htrailing : AllBlank trailing) : trimEnd (text ++ trailing) = text := by
  have hlast : text.reverse.head?.any isBlank = false := by
    rw [isTrimmed, Bool.and_eq_true] at h
    rw [List.head?_reverse]
    simpa using h.2
  have hreverse : AllBlank trailing.reverse := fun c hc => htrailing c (List.mem_reverse.mp hc)
  rw [trimEnd, List.reverse_append, dropWhile_append_of_head? hreverse hlast, List.reverse_reverse]

namespace Lexeme

theorem digitsLength_le (text : List Char) : digitsLength text ≤ text.length :=
  (List.takeWhile_prefix _).length_le

theorem identifierLength_le (text : List Char) : identifierLength text ≤ text.length :=
  (List.takeWhile_prefix _).length_le

theorem signLength_le (text : List Char) : signLength text ≤ text.length := by
  unfold signLength
  split
  · split <;> simp
  · simp

theorem fractionLength_le (text : List Char) : fractionLength text ≤ text.length := by
  unfold fractionLength
  split
  · next rest =>
    have := digitsLength_le rest
    rw [List.length_cons]
    omega
  · simp

theorem exponentLength_le (text : List Char) : exponentLength text ≤ text.length := by
  unfold exponentLength
  split
  · simp
  · next mark rest =>
    have hsign := signLength_le rest
    have hdigits := digitsLength_le (rest.drop (signLength rest))
    rw [List.length_drop] at hdigits
    rw [List.length_cons]
    split <;> omega

theorem decimalLength_le (text : List Char) : decimalLength text ≤ text.length := by
  have hwhole := digitsLength_le text
  have hfraction := fractionLength_le (text.drop (digitsLength text))
  have hexponent := exponentLength_le
    (text.drop (digitsLength text + fractionLength (text.drop (digitsLength text))))
  rw [List.length_drop] at hfraction hexponent
  unfold decimalLength
  dsimp only
  omega

theorem numberLength_le (text : List Char) : numberLength text ≤ text.length := by
  have hsign := signLength_le text
  have hword := identifierLength_le (text.drop (signLength text))
  have hdecimal := decimalLength_le (text.drop (signLength text))
  rw [List.length_drop] at hword hdecimal
  unfold numberLength
  dsimp only
  split <;> omega

/-- A token does not go beyond the end of the text. -/
theorem next?_length_le {mode : LexicalMode} {text : List Char} {kind : TokenKind} {length : Nat}
    (h : next? mode text = some (kind, length)) : length ≤ text.length := by
  cases text with
  | nil => cases h
  | cons c rest =>
    simp only [next?] at h
    split at h
    · cases h
      exact Nat.succ_le_succ (Nat.zero_le _)
    · split at h
      · cases h
        have := (List.takeWhile_prefix (l := rest) Char.isLower).length_le
        rw [List.length_cons]
        omega
      · split at h
        · cases h
          exact numberLength_le _
        · split at h
          · cases h
            exact identifierLength_le _
          · cases h

end Lexeme

/-- The mode after a token. A label leads back into the block. -/
def LexicalMode.next (mode : LexicalMode) (kind : TokenKind) : LexicalMode :=
  if kind = .label then .block else mode.after kind

/-- Only a colon and the closing brace lead out of a parameter block. -/
theorem LexicalMode.next_block {kind : TokenKind} (hclose : kind ≠ .closeBrace)
    (hcolon : kind ≠ .colon) : LexicalMode.block.next kind = .block := by
  cases kind <;> first | rfl | contradiction

/-- In a mode, the text `gap ++ text ++ trailing ++ rest` is read as blanks, a token, blanks that
    belong to no token, and what comes next. Only after a label blanks are passed over at once. -/
inductive Lexes : LexicalMode → TokenKind → List Char → List Char → List Char → List Char → Prop
  where
  | lexeme {mode : LexicalMode} {kind : TokenKind} {gap text rest : List Char}
      (hmode : mode ≠ .label) (hgap : AllBlank gap) (hne : text ≠ [])
      (hhead : text.head?.any isBlank = false)
      (hnext : Lexeme.next? mode (text ++ rest) = some (kind, text.length)) :
      Lexes mode kind gap text [] rest
  | label {gap text trailing rest : List Char} (hgap : AllBlank gap)
      (htrimmed : isTrimmed text = true) (hbrace : '\x7d' ∉ text) (htrailing : AllBlank trailing)
      (hempty : text = [] → trailing = []) (hne : text ++ rest ≠ [])
      (hrest : rest = [] ∨ rest.head? = some '\x7d') :
      Lexes .label .label gap text trailing rest

namespace Lexes

variable {mode : LexicalMode} {kind : TokenKind} {gap text trailing rest : List Char}

theorem allBlank_gap (h : Lexes mode kind gap text trailing rest) : AllBlank gap := by
  cases h with
  | lexeme hmode hgap => exact hgap
  | label hgap => exact hgap

theorem allBlank_trailing (h : Lexes mode kind gap text trailing rest) : AllBlank trailing := by
  cases h with
  | lexeme => exact .nil
  | label hgap htrimmed hbrace htrailing => exact htrailing

end Lexes

section Steps

variable {mode mode' : LexicalMode} {cursor next : Cursor} {token : Token}

theorem scanStep_of_ne_label (h : mode ≠ .label) :
    scanStep mode cursor = scanToken mode cursor := by
  cases mode with
  | label => exact absurd rfl h
  | outside => rfl
  | block => rfl

/-- What is read as a token is the token of the step. -/
theorem Lexes.scanStep_eq {kind : TokenKind} {gap text trailing rest : List Char}
    (h : Lexes mode kind gap text trailing rest)
    (hrest : cursor.rest = gap ++ (text ++ (trailing ++ rest))) :
    scanStep mode cursor =
      .token ⟨kind, String.ofList text, cursor.position + byteLength gap,
        cursor.column + gap.length⟩ (mode.next kind)
        ⟨rest, cursor.position + byteLength gap + byteLength (text ++ trailing),
          cursor.column + gap.length + (text ++ trailing).length⟩ := by
  cases h with
  | lexeme hmode hgap hne hhead hnext =>
    rw [List.nil_append] at hrest
    have hstart : (text ++ rest).head?.any isBlank = false := by
      rwa [List.head?_append_of_ne_nil _ hne]
    have hkind : mode.next kind = mode.after kind := by
      rw [LexicalMode.next, if_neg]
      rintro rfl
      exact Lexeme.next?_ne_label hnext
    obtain ⟨c, more, hcons⟩ := List.exists_cons_of_ne_nil hne
    rw [scanStep_of_ne_label hmode, scanToken, Cursor.skipBlanks_of_rest hrest hgap hstart]
    dsimp only
    split
    · next hnil =>
      rw [hcons] at hnil
      cases hnil
    · rw [hnext, hkind, List.append_nil]
      dsimp only
      rw [List.take_left, Cursor.advance_of_rest rfl]
      rfl
  | label hgap htrimmed hbrace htrailing hempty hne hend =>
    have hstart : (text ++ (trailing ++ rest)).head?.any isBlank = false := by
      by_cases htext : text = []
      · rw [hempty htext, htext, List.nil_append, List.nil_append]
        rcases hend with rfl | hend
        · rfl
        · rw [hend]
          rfl
      · rw [List.head?_append_of_ne_nil _ htext]
        rw [isTrimmed, Bool.and_eq_true] at htrimmed
        simpa using htrimmed.1
    have hbrace' : ∀ c ∈ text ++ trailing, (c != '\x7d') = true := by
      intro c hc
      rw [bne_iff_ne]
      rintro rfl
      rcases List.mem_append.mp hc with hc | hc
      · exact hbrace hc
      · exact absurd (htrailing _ hc) (by decide)
    have hrest' : rest.head?.any (fun c => c != '\x7d') = false := by
      rcases hend with rfl | hend
      · rfl
      · rw [hend]
        rfl
    have hnonempty : (text ++ trailing ++ rest).isEmpty = false := by
      rw [List.isEmpty_eq_false_iff]
      intro hnil
      apply hne
      simp only [List.append_eq_nil_iff] at hnil
      rw [hnil.1.1, hnil.2]
      rfl
    rw [scanStep, scanLabel, Cursor.skipBlanks_of_rest hrest hgap hstart]
    dsimp only
    rw [← List.append_assoc, takeWhile_append_of_head? hbrace' hrest', hnonempty,
      if_neg Bool.false_ne_true, trimEnd_append htrimmed htrailing, Cursor.advance_of_rest rfl]
    rfl

/-- A token that a step finds is read from the text that is left. -/
theorem exists_lexes_of_scanStep (h : scanStep mode cursor = .token token mode' next) :
    ∃ kind gap text trailing, cursor.rest = gap ++ (text ++ (trailing ++ next.rest)) ∧
      Lexes mode kind gap text trailing next.rest := by
  obtain ⟨gap, start, hrest, hgap, hstart⟩ := exists_gap cursor.rest
  have hskip := Cursor.skipBlanks_of_rest hrest hgap hstart
  by_cases hmode : mode = .label
  · subst hmode
    rw [scanStep, scanLabel, hskip] at h
    dsimp only at h
    split at h
    · cases h
    · next hempty =>
      have hsplit : start.takeWhile (fun c => c != '\x7d') ++
          start.dropWhile (fun c => c != '\x7d') = start := List.takeWhile_append_dropWhile
      obtain ⟨trailing, htext, htrailing⟩ :=
        exists_trailing (start.takeWhile fun c => c != '\x7d')
      have hnext : next.rest = start.dropWhile fun c => c != '\x7d' := by
        cases h
        exact drop_length_takeWhile _ start
      have hhead : (start.takeWhile fun c => c != '\x7d').head?.any isBlank = false :=
        any_head?_of_prefix (List.takeWhile_prefix _) hstart
      rw [← hsplit, htext, List.append_assoc, ← hnext] at hrest
      refine ⟨.label, gap, _, trailing, hrest, .label hgap (isTrimmed_trimEnd hhead) ?_ htrailing
        ?_ ?_ ?_⟩
      · intro hmem
        simpa using List.mem_takeWhile_imp ((trimEnd_isPrefix _).mem hmem)
      · intro hnil
        rw [hnil, List.nil_append] at htext
        rw [htext] at hhead
        exact htrailing.eq_nil_of_head? hhead
      · intro hnil
        rw [List.append_eq_nil_iff] at hnil
        rw [hnil.1, List.nil_append] at htext
        rw [htext] at hhead
        rw [← hsplit, htext, htrailing.eq_nil_of_head? hhead, ← hnext, hnil.2] at hempty
        exact hempty rfl
      · rw [hnext]
        have hbrace := List.head?_dropWhile_not (fun c => c != '\x7d') start
        cases hdrop : start.dropWhile fun c => c != '\x7d' with
        | nil => exact .inl rfl
        | cons c more =>
          rw [hdrop] at hbrace
          exact .inr (by simpa using hbrace)
  · rw [scanStep_of_ne_label hmode, scanToken, hskip] at h
    dsimp only at h
    split at h
    · cases h
    · next c more =>
      split at h
      · cases h
      · next kind length hnext =>
        have hlength : ((c :: more).take length).length = length :=
          List.length_take_of_le (Lexeme.next?_length_le hnext)
        have hdrop : next.rest = (c :: more).drop length := by
          cases h
          rfl
        have hsplit := List.take_append_drop length (c :: more)
        rw [← hdrop] at hsplit
        have hne : (c :: more).take length ≠ [] := by
          intro hnil
          rw [hnil] at hlength
          exact absurd (Lexeme.next?_pos hnext) (by simp [← hlength])
        refine ⟨kind, gap, (c :: more).take length, [], ?_, .lexeme hmode hgap hne ?_ ?_⟩
        · rw [hrest, List.nil_append, hsplit]
        · exact any_head?_of_prefix (List.take_prefix _ _) hstart
        · rw [hsplit, hlength, hnext]

/-- The scanner finds a token exactly if one is read from the text that is left. -/
theorem scanStep_eq_token_iff :
    scanStep mode cursor = .token token mode' next ↔
      ∃ kind gap text trailing rest, cursor.rest = gap ++ (text ++ (trailing ++ rest)) ∧
        Lexes mode kind gap text trailing rest ∧ mode' = mode.next kind ∧
        token = ⟨kind, String.ofList text, cursor.position + byteLength gap,
          cursor.column + gap.length⟩ ∧
        next = ⟨rest, cursor.position + byteLength gap + byteLength (text ++ trailing),
          cursor.column + gap.length + (text ++ trailing).length⟩ := by
  constructor
  · intro h
    obtain ⟨kind, gap, text, trailing, hrest, hlexes⟩ := exists_lexes_of_scanStep h
    rw [hlexes.scanStep_eq hrest] at h
    injection h with htoken hmode hnext
    exact ⟨kind, gap, text, trailing, next.rest, hrest, hlexes, hmode.symm, htoken.symm,
      hnext.symm⟩
  · rintro ⟨kind, gap, text, trailing, rest, hrest, hlexes, rfl, rfl, rfl⟩
    exact hlexes.scanStep_eq hrest

/-- The scanner finishes exactly where the text that is left is blank. -/
theorem scanStep_eq_finished_iff : scanStep mode cursor = .finished ↔ AllBlank cursor.rest := by
  obtain ⟨gap, start, hrest, hgap, hstart⟩ := exists_gap cursor.rest
  have hskip := Cursor.skipBlanks_of_rest hrest hgap hstart
  have hblank : AllBlank cursor.rest ↔ start = [] := by
    rw [hrest]
    constructor
    · intro h
      exact h.of_append_right.eq_nil_of_head? hstart
    · rintro rfl
      rwa [List.append_nil]
  rw [hblank]
  by_cases hmode : mode = .label
  · subst hmode
    rw [scanStep, scanLabel, hskip]
    dsimp only
    split
    · next hempty => simpa using hempty
    · next hempty => simpa using hempty
  · rw [scanStep_of_ne_label hmode, scanToken, hskip]
    dsimp only
    split
    · simp
    · split <;> simp

/-- The scanner stops exactly at a character with which no token starts. -/
theorem scanStep_eq_stray_iff {stray : StrayCharacter} :
    scanStep mode cursor = .stray stray ↔
      ∃ gap c rest, cursor.rest = gap ++ c :: rest ∧ AllBlank gap ∧ isBlank c = false ∧
        mode ≠ .label ∧ Lexeme.next? mode (c :: rest) = none ∧
        stray = ⟨cursor.position + byteLength gap, c⟩ := by
  constructor
  · intro h
    obtain ⟨gap, start, hrest, hgap, hstart⟩ := exists_gap cursor.rest
    have hskip := Cursor.skipBlanks_of_rest hrest hgap hstart
    by_cases hmode : mode = .label
    · subst hmode
      rw [scanStep, scanLabel, hskip] at h
      dsimp only at h
      split at h <;> cases h
    · rw [scanStep_of_ne_label hmode, scanToken, hskip] at h
      dsimp only at h
      split at h
      · cases h
      · next c more =>
        split at h
        · next hnone =>
          cases h
          exact ⟨gap, c, more, hrest, hgap, hstart, hmode, hnone, rfl⟩
        · cases h
  · rintro ⟨gap, c, rest, hrest, hgap, hc, hmode, hnone, rfl⟩
    rw [scanStep_of_ne_label hmode, scanToken, Cursor.skipBlanks_of_rest hrest hgap hc]
    dsimp only
    rw [hnone]

theorem scanFrom_of_stray {stray : StrayCharacter} (h : scanStep mode cursor = .stray stray) :
    scanFrom mode cursor = ⟨[], some stray⟩ := by
  rw [scanFrom]
  split
  · next heq => cases h.symm.trans heq
  · next heq =>
    cases h.symm.trans heq
    rfl
  · next heq => cases h.symm.trans heq

/-- Where a character comes next that is not blank, a token stands right there, unless the scan
    ends early. -/
theorem exists_lexes_of_not_isBlank {c : Char} {rest : List Char} (hrest : cursor.rest = c :: rest)
    (hc : isBlank c = false) (hstray : (scanFrom mode cursor).stray = none) :
    ∃ kind text trailing left, c :: rest = text ++ (trailing ++ left) ∧
      Lexes mode kind [] text trailing left ∧ ∃ next : Cursor, next =
        ⟨left, cursor.position + byteLength (text ++ trailing),
          cursor.column + (text ++ trailing).length⟩ ∧
      scanFrom mode cursor =
        ⟨⟨kind, String.ofList text, cursor.position, cursor.column⟩ ::
          (scanFrom (mode.next kind) next).tokens, (scanFrom (mode.next kind) next).stray⟩ := by
  cases hstep : scanStep mode cursor with
  | finished =>
    have hblank := scanStep_eq_finished_iff.mp hstep
    rw [hrest] at hblank
    rw [hblank c List.mem_cons_self] at hc
    cases hc
  | stray stray =>
    rw [scanFrom_of_stray hstep] at hstray
    cases hstray
  | token token mode' next =>
    obtain ⟨kind, gap, text, trailing, left, hsplit, hlexes, rfl, rfl, rfl⟩ :=
      scanStep_eq_token_iff.mp hstep
    rw [hrest] at hsplit
    obtain rfl : gap = [] := by
      cases gap with
      | nil => rfl
      | cons d gap =>
        obtain ⟨rfl, -⟩ := List.cons.inj hsplit
        rw [hlexes.allBlank_gap c List.mem_cons_self] at hc
        cases hc
    exact ⟨kind, text, trailing, left, hsplit, hlexes, _, rfl, scanFrom_of_token hstep⟩

end Steps

end CircuitCode
