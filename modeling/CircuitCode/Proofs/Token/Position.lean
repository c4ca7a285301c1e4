import CircuitCode.Proofs.Token.Scan

/-!
# The places of tokens

Where a text has no blanks its tokens stand one right after the other, so the position of each is
the length of those before it (`consecutive_scanFrom`).
-/

namespace CircuitCode

theorem byteLength_cons (c : Char) (text : List Char) :
    byteLength (c :: text) = c.utf8Size + byteLength text := rfl

/-- The length of a text is that of its parts. -/
theorem byteLength_append (text text' : List Char) :
    byteLength (text ++ text') = byteLength text + byteLength text' := by
  induction text with
  | nil => simp [byteLength]
  | cons c text ih =>
    simp only [byteLength, List.cons_append, List.foldr_cons] at ih ⊢
    omega

/-- Tokens that stand one right after the other, the first of them at the given position. -/
def Consecutive : Nat → List Token → Prop
  | _, [] => True
  | position, token :: tokens =>
    token.position = position ∧ Consecutive (position + byteLength token.text.toList) tokens

/-- No character of a text is blank. -/
def BlankFree (text : List Char) : Prop := ∀ c ∈ text, isBlank c = false

theorem BlankFree.of_suffix {text rest : List Char} (h : BlankFree text) (hrest : rest <:+ text) :
    BlankFree rest := by
  intro c hc
  exact h c (hrest.mem hc)

theorem BlankFree.head?_any {text : List Char} (h : BlankFree text) :
    text.head?.any isBlank = false := by
  cases text with
  | nil => rfl
  | cons c rest => exact h c List.mem_cons_self

theorem BlankFree.isTrimmed {text : List Char} (h : BlankFree text) : isTrimmed text = true := by
  have hlast : text.getLast?.any isBlank = false := by
    rw [← List.head?_reverse]
    apply head?_any
    intro c hc
    exact h c (List.mem_reverse.mp hc)
  rw [CircuitCode.isTrimmed, h.head?_any, hlast]
  rfl

theorem Cursor.skipBlanks_of_blankFree {cursor : Cursor} (h : BlankFree cursor.rest) :
    cursor.skipBlanks = cursor := by
  have hnone : cursor.rest.takeWhile isBlank = [] := by
    cases hrest : cursor.rest with
    | nil => rfl
    | cons c rest =>
      rw [hrest] at h
      simp [h c List.mem_cons_self]
  rw [skipBlanks, hnone]
  simp [advance, byteLength]

/-- A token of a text without blanks stands where the scanner is, and the scanner goes on right
    after it. -/
theorem scanStep_of_blankFree {mode mode' : LexicalMode} {cursor next : Cursor} {token : Token}
    (hfree : BlankFree cursor.rest) (h : scanStep mode cursor = .token token mode' next) :
    token.position = cursor.position ∧
      next.position = cursor.position + byteLength token.text.toList ∧
      next.rest <:+ cursor.rest := by
  have hskip := Cursor.skipBlanks_of_blankFree hfree
  have htoken (h : scanToken mode cursor = .token token mode' next) :
      token.position = cursor.position ∧
        next.position = cursor.position + byteLength token.text.toList ∧
        next.rest <:+ cursor.rest := by
    simp only [scanToken, hskip] at h
    split at h
    · cases h
    · split at h
      · cases h
      · cases h
        refine ⟨rfl, ?_, List.drop_suffix _ _⟩
        simp [Cursor.token, Cursor.advance]
  cases mode with
  | label =>
    simp only [scanStep, scanLabel, hskip] at h
    split at h
    · cases h
    · cases h
      have htaken := List.takeWhile_prefix (l := cursor.rest) fun c => c != '\x7d'
      have htrim : trimEnd (cursor.rest.takeWhile fun c => c != '\x7d') =
          cursor.rest.takeWhile fun c => c != '\x7d' := by
        apply trimEnd_of_isTrimmed
        apply BlankFree.isTrimmed
        intro c hc
        exact hfree c (htaken.mem hc)
      refine ⟨rfl, ?_, List.drop_suffix _ _⟩
      simp only [Cursor.token, Cursor.advance, String.toList_ofList, htrim]
      rw [← List.prefix_iff_eq_take.mp htaken]
  | outside => exact htoken h
  | block => exact htoken h

/-- Tokens of a text without blanks stand one right after the other. -/
theorem consecutive_scanFrom (mode : LexicalMode) (cursor : Cursor)
    (h : BlankFree cursor.rest) : Consecutive cursor.position (scanFrom mode cursor).tokens := by
  fun_induction scanFrom mode cursor with
  | case1 => exact trivial
  | case2 => exact trivial
  | case3 mode cursor token mode' next hstep rest ih =>
    obtain ⟨hposition, hnext, hsuffix⟩ := scanStep_of_blankFree h hstep
    have hrest := ih (h.of_suffix hsuffix)
    rw [hnext] at hrest
    exact ⟨hposition, hrest⟩

theorem consecutive_tokenize {text : String} (h : BlankFree text.toList) :
    Consecutive 0 (tokenize text).tokens :=
  consecutive_scanFrom .outside (Cursor.start text.toList) h

end CircuitCode
