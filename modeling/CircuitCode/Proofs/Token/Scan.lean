import CircuitCode.Proofs.Text.Span
import CircuitCode.Proofs.Token.Label

/-!
# Scanning texts in pieces

`Scans mode text rest lexemes mode'` says that a text is scanned into the given tokens where
`rest` follows, and which mode it leaves. What follows counts because a token is as long as it can
be. Pieces are put together with `Scans.append`.
-/

namespace CircuitCode

/-- A token without its place. -/
def Token.lexeme (token : Token) : TokenKind × String := (token.kind, token.text)

/-- In one mode, before `rest`, a text is scanned into the given tokens and leaves the other
    mode. -/
def Scans (mode : LexicalMode) (text rest : List Char) (lexemes : List (TokenKind × String))
    (mode' : LexicalMode) : Prop :=
  ∀ cursor : Cursor, cursor.rest = text ++ rest →
    ∃ (tokens : List Token) (next : Cursor), tokens.map Token.lexeme = lexemes ∧
      next.rest = rest ∧
      scanFrom mode cursor =
        ⟨tokens ++ (scanFrom mode' next).tokens, (scanFrom mode' next).stray⟩

theorem scanFrom_of_token {mode mode' : LexicalMode} {cursor next : Cursor} {token : Token}
    (h : scanStep mode cursor = .token token mode' next) :
    scanFrom mode cursor =
      ⟨token :: (scanFrom mode' next).tokens, (scanFrom mode' next).stray⟩ := by
  rw [scanFrom]
  split
  · next heq => cases h.symm.trans heq
  · next heq => cases h.symm.trans heq
  · next heq =>
    cases h.symm.trans heq
    rfl

theorem scanFrom_of_finished {mode : LexicalMode} {cursor : Cursor}
    (h : scanStep mode cursor = .finished) : scanFrom mode cursor = ⟨[], none⟩ := by
  rw [scanFrom]
  split
  · rfl
  · next heq => cases h.symm.trans heq
  · next heq => cases h.symm.trans heq

theorem Cursor.rest_skipBlanks {cursor : Cursor} (h : cursor.rest.head?.any isBlank = false) :
    cursor.skipBlanks.rest = cursor.rest := by
  rw [skipBlanks, advance, drop_length_takeWhile]
  exact dropWhile_of_head? h

theorem trimEnd_of_isTrimmed {text : List Char} (h : isTrimmed text = true) :
    trimEnd text = text := by
  have hlast : text.reverse.head?.any isBlank = false := by
    rw [List.head?_reverse]
    rw [isTrimmed, Bool.and_eq_true] at h
    simpa using h.2
  rw [trimEnd, dropWhile_of_head? hlast, List.reverse_reverse]

namespace Scans

variable {mode mode' mode'' : LexicalMode} {text text' rest : List Char}
  {lexemes lexemes' : List (TokenKind × String)}

theorem nil : Scans mode [] rest [] mode := by
  intro cursor hrest
  exact ⟨[], cursor, rfl, hrest, rfl⟩

theorem append (h : Scans mode text (text' ++ rest) lexemes mode')
    (h' : Scans mode' text' rest lexemes' mode'') :
    Scans mode (text ++ text') rest (lexemes ++ lexemes') mode'' := by
  intro cursor hrest
  rw [List.append_assoc] at hrest
  obtain ⟨tokens, next, hlexemes, hnext, hscan⟩ := h cursor hrest
  obtain ⟨tokens', next', hlexemes', hnext', hscan'⟩ := h' next hnext
  refine ⟨tokens ++ tokens', next', by rw [List.map_append, hlexemes, hlexemes'], hnext', ?_⟩
  rw [hscan, hscan', List.append_assoc]

theorem cons {lexeme : TokenKind × String} (h : Scans mode text (text' ++ rest) [lexeme] mode')
    (h' : Scans mode' text' rest lexemes mode'') :
    Scans mode (text ++ text') rest (lexeme :: lexemes) mode'' :=
  h.append h'

/-- One token. -/
theorem of_next? {kind : TokenKind} (hmode : mode ≠ .label) (hne : text ≠ [])
    (hblank : text.head?.any isBlank = false)
    (hnext : Lexeme.next? mode (text ++ rest) = some (kind, text.length)) :
    Scans mode text rest [(kind, String.ofList text)] (mode.after kind) := by
  intro cursor hrest
  have hhead : cursor.rest.head?.any isBlank = false := by
    rw [hrest, List.head?_append_of_ne_nil _ hne]
    exact hblank
  have hskip : cursor.skipBlanks.rest = text ++ rest :=
    (Cursor.rest_skipBlanks hhead).trans hrest
  obtain ⟨c, more, hcons⟩ : ∃ c more, text ++ rest = c :: more := by
    cases text with
    | nil => exact absurd rfl hne
    | cons c more => exact ⟨c, more ++ rest, rfl⟩
  have hstep : scanStep mode cursor =
      .token (cursor.skipBlanks.token kind text) (mode.after kind)
        (cursor.skipBlanks.advance text.length) := by
    have htoken : scanStep mode cursor = scanToken mode cursor := by
      cases mode with
      | label => exact absurd rfl hmode
      | outside => rfl
      | block => rfl
    rw [htoken, scanToken, hskip]
    split
    · next hnil => cases hcons.symm.trans hnil
    · rw [hnext]
      simp
  refine ⟨[cursor.skipBlanks.token kind text], _, rfl, ?_, scanFrom_of_token hstep⟩
  rw [Cursor.advance, hskip, List.drop_left]

/-- A punctuation mark is a token wherever it stands outside a label. -/
theorem mark {c : Char} {kind : TokenKind} (hmode : mode ≠ .label)
    (hkind : TokenKind.punctuation? c = some kind) :
    Scans mode [c] rest [(kind, String.ofList [c])] (mode.after kind) := by
  refine of_next? hmode (by simp) ?_ ?_
  · unfold TokenKind.punctuation? at hkind
    split at hkind
    all_goals first | rfl | cases hkind
  · rw [List.singleton_append, Lexeme.next?, hkind]
    rfl

/-- The text up to a closing brace is a label after a colon. -/
theorem label {label : List Char} (hne : label ≠ []) (hbrace : '\x7d' ∉ label)
    (htrimmed : isTrimmed label = true) :
    Scans .label label ('\x7d' :: rest) [(.label, String.ofList label)] .block := by
  intro cursor hrest
  have hhead : cursor.rest.head?.any isBlank = false := by
    rw [hrest, List.head?_append_of_ne_nil _ hne]
    rw [isTrimmed, Bool.and_eq_true] at htrimmed
    simpa using htrimmed.1
  have hskip : cursor.skipBlanks.rest = label ++ '\x7d' :: rest :=
    (Cursor.rest_skipBlanks hhead).trans hrest
  have htake : (label ++ '\x7d' :: rest).takeWhile (fun c => c != '\x7d') = label := by
    refine takeWhile_append_of_head? (fun c hmem => ?_) rfl
    have hc : c ≠ '\x7d' := fun heq => hbrace (heq ▸ hmem)
    simpa using hc
  have hstep : scanStep .label cursor =
      .token (cursor.skipBlanks.token .label label) .block
        (cursor.skipBlanks.advance label.length) := by
    rw [scanStep, scanLabel, hskip, htake, trimEnd_of_isTrimmed htrimmed]
    rw [if_neg (by simp)]
  refine ⟨[cursor.skipBlanks.token .label label], _, rfl, ?_, scanFrom_of_token hstep⟩
  rw [Cursor.advance, hskip, List.drop_left]

/-- A text that is scanned up to its end has these tokens and no character that starts none. -/
theorem tokenize_eq {text : String} (h : Scans .outside text.toList [] lexemes mode) :
    (tokenize text).stray = none ∧ (tokenize text).tokens.map Token.lexeme = lexemes := by
  obtain ⟨tokens, next, hlexemes, hnext, hscan⟩ := h (.start text.toList) (by simp [Cursor.start])
  have hskip : next.skipBlanks.rest = [] := by
    rw [Cursor.rest_skipBlanks (by rw [hnext]; rfl), hnext]
  have hstep : scanStep mode next = .finished := by
    cases mode with
    | label => rw [scanStep, scanLabel, hskip]; rfl
    | outside => rw [scanStep, scanToken, hskip]; simp
    | block => rw [scanStep, scanToken, hskip]; simp
  rw [tokenize, hscan, scanFrom_of_finished hstep]
  exact ⟨rfl, by rw [List.append_nil, hlexemes]⟩

end Scans

end CircuitCode
