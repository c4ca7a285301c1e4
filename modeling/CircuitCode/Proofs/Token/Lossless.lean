import CircuitCode.Proofs.Token.Position
import CircuitCode.Proofs.Token.Step

/-!
# Nothing of a text is lost

The tokens of a text are pieces of it, one after the other, each at the place that it names, and
what lies between them is blank. A scan that ends early ends at the first character that is not
blank and with which no token can start (`lossless_tokenize`).
-/

namespace CircuitCode

/-- The position right after a token. -/
def Token.stop (token : Token) : Nat := token.position + byteLength token.text.toList

/-- Whether the byte at a position is one of a token. -/
def Token.Covers (token : Token) (position : Nat) : Prop :=
  token.position ≤ position ∧ position < token.stop

/-- Whether a token can start with a character. A label can be any text. -/
def LexicalMode.starts (mode : LexicalMode) (c : Char) : Bool :=
  match mode with
  | .outside => (TokenKind.punctuation? c).isSome || c.isAlpha || Lexeme.isNumberStart c
  | .block =>
    (TokenKind.punctuation? c).isSome || Lexeme.isIdentifierStart c || Lexeme.isNumberStart c
  | .label => true

/-- The mode after some tokens. -/
def LexicalMode.nextAll (mode : LexicalMode) (tokens : List Token) : LexicalMode :=
  tokens.foldl (fun mode token => mode.next token.kind) mode

/-- The tokens of a text account for all of it, up to the character at which they end early, if
    there is one. -/
structure Lossless (text : List Char) (scan : Scan) : Prop where
  /-- A token is what stands at its place. -/
  verbatim : ∀ token ∈ scan.tokens, ∃ before after,
    text = before ++ (token.text.toList ++ after) ∧ token.position = byteLength before ∧
      token.column = 1 + before.length
  ordered : scan.tokens.Pairwise fun token later => token.stop ≤ later.position
  blank : ∀ before c after, text = before ++ c :: after →
    (∀ token ∈ scan.tokens, ¬ token.Covers (byteLength before)) →
    (∀ stray, scan.stray = some stray → byteLength before < stray.position) → isBlank c = true
  startable : ∀ before token after, scan.tokens = before ++ token :: after →
    ∀ c, token.text.toList.head? = some c → (LexicalMode.outside.nextAll before).starts c = true
  /-- The character at which the tokens end stands behind them all, and none can start with it. -/
  stray : ∀ stray, scan.stray = some stray →
    (∃ before after, text = before ++ stray.char :: after ∧ stray.position = byteLength before) ∧
      (∀ token ∈ scan.tokens, token.stop ≤ stray.position) ∧ isBlank stray.char = false ∧
      (LexicalMode.outside.nextAll scan.tokens).starts stray.char = false

/-- Outside a label there is a token exactly where one can start. -/
theorem LexicalMode.starts_iff_isSome_next? {mode : LexicalMode} (hmode : mode ≠ .label) (c : Char)
    (rest : List Char) : mode.starts c = true ↔ (Lexeme.next? mode (c :: rest)).isSome = true := by
  cases hmark : TokenKind.punctuation? c with
  | some kind =>
    cases mode with
    | label => exact absurd rfl hmode
    | outside => simp [starts, Lexeme.next?, hmark]
    | block => simp [starts, Lexeme.next?, hmark]
  | none =>
    have hsome {p : Prop} [Decidable p] {kind : TokenKind × Nat}
        {other : Option (TokenKind × Nat)} :
        (if p then some kind else other).isSome = true ↔ p ∨ other.isSome = true := by
      by_cases hp : p <;> simp [hp]
    cases mode with
    | label => exact absurd rfl hmode
    | outside => simp [starts, Lexeme.next?, hmark, hsome]
    | block => simp [starts, Lexeme.next?, hmark, hsome, or_comm]

theorem eq_nil_of_byteLength {text : List Char} (h : byteLength text = 0) : text = [] := by
  cases text with
  | nil => rfl
  | cons c text =>
    have hpos := c.utf8Size_pos
    rw [byteLength_cons] at h
    omega

/-- A character of a text in two parts stands in one of them. -/
theorem append_cons_eq_append_iff {α : Type} {before after text text' : List α} {a : α} :
    before ++ a :: after = text ++ text' ↔
      (∃ more, text = before ++ a :: more ∧ after = more ++ text') ∨
        ∃ more, before = text ++ more ∧ text' = more ++ a :: after := by
  rw [List.append_eq_append_iff]
  constructor
  · rintro (⟨more, rfl, hmore⟩ | ⟨more, rfl, rfl⟩)
    · cases more with
      | nil => exact .inr ⟨[], by simp, by simpa using hmore.symm⟩
      | cons c more =>
        obtain ⟨rfl, rfl⟩ := List.cons.inj hmore
        exact .inl ⟨more, rfl, rfl⟩
    · exact .inr ⟨more, rfl, rfl⟩
  · rintro (⟨more, rfl, rfl⟩ | ⟨more, rfl, rfl⟩)
    · exact .inl ⟨a :: more, rfl, rfl⟩
    · exact .inr ⟨more, rfl, rfl⟩

section Steps

variable (mode : LexicalMode) (cursor : Cursor)

/-- The tokens from a place on stand behind it, each at the place that it names. -/
theorem exists_place_of_mem_scanFrom :
    ∀ token ∈ (scanFrom mode cursor).tokens, ∃ before after,
      cursor.rest = before ++ (token.text.toList ++ after) ∧
        token.position = cursor.position + byteLength before ∧
        token.column = cursor.column + before.length := by
  fun_induction scanFrom mode cursor with
  | case1 => exact List.forall_mem_nil _
  | case2 => exact List.forall_mem_nil _
  | case3 mode cursor token mode' next h rest ih =>
    obtain ⟨kind, gap, text, trailing, left, hrest, -, rfl, rfl, rfl⟩ :=
      scanStep_eq_token_iff.mp h
    refine List.forall_mem_cons.mpr ⟨⟨gap, trailing ++ left, ?_, rfl, rfl⟩, ?_⟩
    · rw [String.toList_ofList, hrest]
    · intro later hlater
      obtain ⟨before, after, hleft, hposition, hcolumn⟩ := ih later hlater
      refine ⟨gap ++ (text ++ trailing) ++ before, after, ?_, ?_, ?_⟩
      · simp only [hrest, ← hleft, List.append_assoc]
      · simp only [hposition, byteLength_append]
        omega
      · simp only [hcolumn, List.length_append]
        omega

/-- Each token ends before the next one starts. -/
theorem pairwise_scanFrom :
    (scanFrom mode cursor).tokens.Pairwise fun token later => token.stop ≤ later.position := by
  fun_induction scanFrom mode cursor with
  | case1 => exact .nil
  | case2 => exact .nil
  | case3 mode cursor token mode' next h rest ih =>
    refine List.pairwise_cons.mpr ⟨?_, ih⟩
    intro later hlater
    obtain ⟨before, after, -, hposition, -⟩ := exists_place_of_mem_scanFrom mode' next later hlater
    obtain ⟨kind, gap, text, trailing, left, -, -, -, rfl, rfl⟩ := scanStep_eq_token_iff.mp h
    rw [hposition, Token.stop, String.toList_ofList]
    dsimp only
    rw [byteLength_append]
    omega

/-- A character that belongs to no token is blank, up to the one at which the scan ends early. -/
theorem isBlank_of_uncovered (before : List Char) (c : Char) (after : List Char)
    (hrest : cursor.rest = before ++ c :: after)
    (hcovered : ∀ token ∈ (scanFrom mode cursor).tokens,
      ¬ token.Covers (cursor.position + byteLength before))
    (hstray : ∀ stray, (scanFrom mode cursor).stray = some stray →
      cursor.position + byteLength before < stray.position) : isBlank c = true := by
  fun_induction scanFrom mode cursor generalizing before with
  | case1 mode cursor h =>
    have hblank := scanStep_eq_finished_iff.mp h
    rw [hrest] at hblank
    exact hblank c (List.mem_append_right _ List.mem_cons_self)
  | case2 mode cursor stray h =>
    obtain ⟨gap, d, left, hsplit, hgap, -, -, -, rfl⟩ := scanStep_eq_stray_iff.mp h
    have hbefore := hstray _ rfl
    rw [hsplit, eq_comm, append_cons_eq_append_iff] at hrest
    rcases hrest with ⟨more, rfl, -⟩ | ⟨more, rfl, -⟩
    · exact hgap c (List.mem_append_right _ List.mem_cons_self)
    · rw [byteLength_append] at hbefore
      dsimp only at hbefore
      omega
  | case3 mode cursor token mode' next h rest ih =>
    obtain ⟨kind, gap, text, trailing, left, hsplit, hlexes, rfl, rfl, rfl⟩ :=
      scanStep_eq_token_iff.mp h
    obtain ⟨htoken, hothers⟩ := List.forall_mem_cons.mp hcovered
    rw [hsplit, eq_comm, append_cons_eq_append_iff] at hrest
    rcases hrest with ⟨more, rfl, -⟩ | ⟨more, rfl, hmore⟩
    · exact hlexes.allBlank_gap c (List.mem_append_right _ List.mem_cons_self)
    rw [eq_comm, append_cons_eq_append_iff] at hmore
    rcases hmore with ⟨more', rfl, -⟩ | ⟨more', rfl, hmore⟩
    · -- a character of the token is covered by it
      exfalso
      apply htoken
      have hpos := c.utf8Size_pos
      rw [Token.Covers, Token.stop, String.toList_ofList, byteLength_append, byteLength_append more,
        byteLength_cons]
      dsimp only
      omega
    rw [eq_comm, append_cons_eq_append_iff] at hmore
    rcases hmore with ⟨more, rfl, -⟩ | ⟨more, rfl, hmore⟩
    · exact hlexes.allBlank_trailing c (List.mem_append_right _ List.mem_cons_self)
    · have hposition : cursor.position + byteLength (gap ++ (text ++ (trailing ++ more))) =
          cursor.position + byteLength gap + byteLength (text ++ trailing) + byteLength more := by
        simp only [byteLength_append]
        omega
      rw [hposition] at hothers hstray
      exact ih more hmore hothers hstray

/-- A token starts with a character that one can start with in the mode that the tokens before it
    lead to. -/
theorem starts_of_scanFrom (before after : List Token) (token : Token)
    (h : (scanFrom mode cursor).tokens = before ++ token :: after) {c : Char}
    (hc : token.text.toList.head? = some c) : (mode.nextAll before).starts c = true := by
  fun_induction scanFrom mode cursor generalizing before with
  | case1 => simp at h
  | case2 => simp at h
  | case3 mode cursor first mode' next hstep rest ih =>
    obtain ⟨kind, gap, text, trailing, left, -, hlexes, rfl, rfl, rfl⟩ :=
      scanStep_eq_token_iff.mp hstep
    cases before with
    | cons d before =>
      obtain ⟨rfl, hothers⟩ := List.cons.inj h
      exact ih before hothers
    | nil =>
      obtain ⟨rfl, -⟩ := List.cons.inj h
      rw [String.toList_ofList] at hc
      cases hlexes with
      | label => rfl
      | lexeme hmode hgap hne hhead hnext =>
        obtain ⟨more, rfl⟩ := List.head?_eq_some_iff.mp hc
        refine (LexicalMode.starts_iff_isSome_next? hmode c (more ++ left)).mpr ?_
        rw [← List.cons_append, hnext]
        rfl

/-- Where a scan ends early, no token can start, and all tokens end before. -/
theorem stray_scanFrom {stray : StrayCharacter} (h : (scanFrom mode cursor).stray = some stray) :
    (∃ before after, cursor.rest = before ++ stray.char :: after ∧
        stray.position = cursor.position + byteLength before) ∧
      (∀ token ∈ (scanFrom mode cursor).tokens, token.stop ≤ stray.position) ∧
      isBlank stray.char = false ∧
      (mode.nextAll (scanFrom mode cursor).tokens).starts stray.char = false := by
  fun_induction scanFrom mode cursor with
  | case1 => cases h
  | case2 mode cursor character hstep =>
    obtain ⟨gap, c, left, hrest, hgap, hc, hmode, hnone, rfl⟩ := scanStep_eq_stray_iff.mp hstep
    obtain rfl := Option.some.inj h
    refine ⟨⟨gap, left, hrest, rfl⟩, List.forall_mem_nil _, hc, ?_⟩
    rw [← Bool.not_eq_true, LexicalMode.nextAll, List.foldl_nil,
      LexicalMode.starts_iff_isSome_next? hmode c left, hnone]
    exact Bool.false_ne_true
  | case3 mode cursor token mode' next hstep rest ih =>
    obtain ⟨⟨before, after, hrest, hposition⟩, hstop, hblank, hstarts⟩ := ih h
    obtain ⟨kind, gap, text, trailing, left, hsplit, -, rfl, rfl, rfl⟩ :=
      scanStep_eq_token_iff.mp hstep
    dsimp only at hrest hposition
    refine ⟨⟨gap ++ (text ++ trailing) ++ before, after, ?_, ?_⟩, ?_, hblank, hstarts⟩
    · simp only [hsplit, hrest, List.append_assoc]
    · simp only [hposition, byteLength_append]
      omega
    · refine List.forall_mem_cons.mpr ⟨?_, hstop⟩
      rw [hposition, Token.stop, String.toList_ofList, byteLength_append]
      dsimp only
      omega

end Steps

/-- Each token of a text is what stands at the position and the column that it names, the tokens
    stand one after the other, and all else is blank, up to the end of the text or up to the first
    character with which no token can start. -/
theorem lossless_tokenize (text : String) : Lossless text.toList (tokenize text) where
  verbatim := by
    intro token htoken
    obtain ⟨before, after, hrest, hposition, hcolumn⟩ :=
      exists_place_of_mem_scanFrom .outside (.start text.toList) token htoken
    exact ⟨before, after, hrest, hposition.trans (Nat.zero_add _), hcolumn⟩
  ordered := pairwise_scanFrom _ _
  blank := by
    intro before c after htext hcovered hstray
    rw [← Nat.zero_add (byteLength before)] at hcovered hstray
    exact isBlank_of_uncovered .outside (.start text.toList) before c after htext hcovered hstray
  startable := fun before token after h c hc => starts_of_scanFrom _ _ before after token h hc
  stray := by
    intro stray hstray
    obtain ⟨⟨before, after, hrest, hposition⟩, hothers⟩ := stray_scanFrom _ _ hstray
    exact ⟨⟨before, after, hrest, hposition.trans (Nat.zero_add _)⟩, hothers⟩

end CircuitCode
