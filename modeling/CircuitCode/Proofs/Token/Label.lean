import Mathlib.Data.List.DropRight
import Mathlib.Data.List.TakeWhile
import CircuitCode.Token.Scan

/-!
# The labels that the scanner finds

The text of a label token has no closing brace, and no blanks around it. All else that the scanner
finds is not a label.
-/

namespace CircuitCode

namespace Grammar

/-- The text of a label token: it has no closing brace and neither starts nor ends with a blank. -/
def IsLabelText (text : String) : Prop :=
  '\x7d' ∉ text.toList ∧ isTrimmed text.toList = true

/-- Every label among some tokens has the text of one. -/
def LabelsTrimmed (tokens : List Token) : Prop :=
  ∀ token ∈ tokens, token.kind = .label → IsLabelText token.text

theorem LabelsTrimmed.of_suffix {tokens rest : List Token} (h : LabelsTrimmed tokens)
    (hrest : rest <:+ tokens) : LabelsTrimmed rest :=
  fun token hmem => h token (hrest.mem hmem)

theorem LabelsTrimmed.of_subset {tokens tokens' : List Token} (h : LabelsTrimmed tokens)
    (hsubset : tokens' ⊆ tokens) : LabelsTrimmed tokens' :=
  fun token hmem => h token (hsubset hmem)

theorem labelsTrimmed_nil : LabelsTrimmed [] := by simp [LabelsTrimmed]

theorem labelsTrimmed_cons {token : Token} {tokens : List Token} :
    LabelsTrimmed (token :: tokens) ↔
      (token.kind = .label → IsLabelText token.text) ∧ LabelsTrimmed tokens := by
  simp [LabelsTrimmed]

end Grammar

open Grammar

theorem trimEnd_isPrefix (text : List Char) : trimEnd text <+: text :=
  List.rdropWhile_prefix isBlank text

theorem any_head?_of_prefix {α : Type} {p : α → Bool} {taken text : List α} (h : taken <+: text)
    (hhead : text.head?.any p = false) : taken.head?.any p = false := by
  obtain ⟨tail, rfl⟩ := h
  cases taken with
  | nil => rfl
  | cons c rest => exact hhead

theorem isTrimmed_trimEnd {text : List Char} (h : text.head?.any isBlank = false) :
    isTrimmed (trimEnd text) = true := by
  have hlast : (trimEnd text).getLast?.any isBlank = false := by
    by_cases hne : trimEnd text = []
    · rw [hne]
      rfl
    · rw [List.getLast?_eq_some_getLast hne, Option.any_some, ← Bool.not_eq_true]
      exact List.rdropWhile_last_not isBlank text hne
  rw [isTrimmed, any_head?_of_prefix (trimEnd_isPrefix text) h, hlast]
  rfl

theorem drop_length_takeWhile {α : Type} (p : α → Bool) (text : List α) :
    text.drop (text.takeWhile p).length = text.dropWhile p := by
  induction text with
  | nil => rfl
  | cons c rest ih => by_cases hc : p c <;> simp [hc, ih]

/-- No blank stands where the blanks are passed over. -/
theorem Cursor.head?_skipBlanks (cursor : Cursor) :
    cursor.skipBlanks.rest.head?.any isBlank = false := by
  have hhead := List.head?_dropWhile_not isBlank cursor.rest
  rw [skipBlanks, advance, drop_length_takeWhile]
  cases hkept : (cursor.rest.dropWhile isBlank).head? with
  | none => rfl
  | some c =>
    rw [hkept] at hhead
    exact hhead

theorem scanLabel_isLabelText {cursor next : Cursor} {token : Token} {mode : LexicalMode}
    (h : scanLabel cursor = .token token mode next) : IsLabelText token.text := by
  simp only [scanLabel] at h
  split at h
  · cases h
  · cases h
    have hbrace : '\x7d' ∉ cursor.skipBlanks.rest.takeWhile fun c => c != '\x7d' := fun hmem => by
      simpa using List.mem_takeWhile_imp hmem
    have hhead := any_head?_of_prefix
      (List.takeWhile_prefix (l := cursor.skipBlanks.rest) fun c => c != '\x7d')
      cursor.head?_skipBlanks
    rw [IsLabelText, Cursor.token, String.toList_ofList]
    exact ⟨fun hmem => hbrace ((trimEnd_isPrefix _).mem hmem), isTrimmed_trimEnd hhead⟩

theorem Lexeme.next?_ne_label {mode : LexicalMode} {text : List Char} {length : Nat} :
    next? mode text ≠ some (.label, length) := by
  intro h
  unfold next? at h
  split at h
  · cases h
  · split at h
    · next hmark =>
      unfold TokenKind.punctuation? at hmark
      split at hmark <;> cases hmark <;> cases h
    · split at h
      · cases h
      · split at h
        · cases h
        · split at h
          · dsimp only at h
            split at h <;> cases h
          · cases h

theorem scanToken_kind_ne_label {mode mode' : LexicalMode} {cursor next : Cursor} {token : Token}
    (h : scanToken mode cursor = .token token mode' next) : token.kind ≠ .label := by
  simp only [scanToken] at h
  split at h
  · cases h
  · split at h
    · cases h
    · next kind length hnext =>
      cases h
      rintro (rfl : kind = .label)
      exact Lexeme.next?_ne_label hnext

theorem scanStep_isLabelText {mode mode' : LexicalMode} {cursor next : Cursor} {token : Token}
    (h : scanStep mode cursor = .token token mode' next) (hkind : token.kind = .label) :
    IsLabelText token.text := by
  cases mode with
  | label => exact scanLabel_isLabelText h
  | outside => exact absurd hkind (scanToken_kind_ne_label h)
  | block => exact absurd hkind (scanToken_kind_ne_label h)

theorem labelsTrimmed_scanFrom (mode : LexicalMode) (cursor : Cursor) :
    LabelsTrimmed (scanFrom mode cursor).tokens := by
  fun_induction scanFrom mode cursor with
  | case1 => exact labelsTrimmed_nil
  | case2 => exact labelsTrimmed_nil
  | case3 mode cursor token mode' next h rest ih =>
    exact labelsTrimmed_cons.mpr ⟨scanStep_isLabelText h, ih⟩

theorem labelsTrimmed_tokenize (text : String) : LabelsTrimmed (tokenize text).tokens :=
  labelsTrimmed_scanFrom _ _

end CircuitCode
