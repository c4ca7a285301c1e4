import CircuitCode.Proofs.Token.Spaced

/-!
# Marks between tokens

Outside a label a punctuation mark belongs to no token but its own, and no token goes on with it
(`next?_append_mark`). So what stands between two marks of a parameter block is scanned into the
same tokens whichever mark comes after it (`exists_scans_of_scanFrom`).
-/

namespace CircuitCode

namespace Lexeme

/-- A length that takes in nothing from the mark on. -/
def EndsAt (mark : Char) (length : List Char → Nat) : Prop :=
  ∀ text rest, length (text ++ mark :: rest) = length text

theorem EndsAt.seq {mark : Char} {first next : List Char → Nat} (hfirst : EndsAt mark first)
    (hle : ∀ text, first text ≤ text.length) (hnext : EndsAt mark next) :
    EndsAt mark (seqLength first next) := by
  intro text rest
  rw [seqLength, seqLength, hfirst, List.drop_append_of_le_length (hle text), hnext]

theorem takeWhile_append_of_neg {p : Char → Bool} {mark : Char} (hp : p mark = false)
    (text rest : List Char) : (text ++ mark :: rest).takeWhile p = text.takeWhile p := by
  induction text with
  | nil => simp [hp]
  | cons c text ih => by_cases hc : p c <;> simp [hc, ih]

theorem any_head?_append_of_neg {p : Char → Bool} {mark : Char} (hp : p mark = false)
    (text rest : List Char) : (text ++ mark :: rest).head?.any p = text.head?.any p := by
  cases text with
  | nil => exact hp
  | cons c text => rfl

section Marks

variable {mark : Char} {markKind : TokenKind}
  (hmark : TokenKind.punctuation? mark = some markKind)
include hmark

theorem isBlank_of_mark : isBlank mark = false := by
  unfold TokenKind.punctuation? at hmark
  split at hmark <;> first | rfl | cases hmark

theorem eq_false_of_mark {p : Char → Bool}
    (hp : ∀ c, p c = true → TokenKind.punctuation? c = none) : p mark = false := by
  by_contra hc
  cases hmark.symm.trans (hp mark (by simpa using hc))

theorem endsAt_takeWhile {p : Char → Bool}
    (hp : ∀ c, p c = true → TokenKind.punctuation? c = none) :
    EndsAt mark fun text => (text.takeWhile p).length := by
  intro text rest
  dsimp only
  rw [takeWhile_append_of_neg (eq_false_of_mark hmark hp)]

theorem endsAt_identifierLength : EndsAt mark identifierLength :=
  endsAt_takeWhile hmark fun _ => punctuation?_of_isIdentifierChar

theorem endsAt_digitsLength : EndsAt mark digitsLength :=
  endsAt_takeWhile hmark fun _ => punctuation?_of_isDigit

theorem endsAt_signLength : EndsAt mark signLength := by
  intro text rest
  cases text with
  | nil =>
    rw [List.nil_append, signLength,
      eq_false_of_mark (p := isSign) hmark fun _ => punctuation?_of_isSign]
    rfl
  | cons c text => rfl

theorem endsAt_fractionLength : EndsAt mark fractionLength := by
  have hother {c : Char} (hc : c ≠ '.') (more : List Char) : fractionLength (c :: more) = 0 := by
    unfold fractionLength
    split
    · next heq => exact absurd (List.cons.inj heq).1 hc
    · rfl
  have hpoint : mark ≠ '.' := by
    rintro rfl
    cases hmark
  intro text rest
  cases text with
  | nil => exact hother hpoint rest
  | cons c text =>
    by_cases hc : c = '.'
    · subst hc
      exact congrArg (1 + ·) (endsAt_digitsLength hmark text rest)
    · rw [List.cons_append, hother hc, hother hc]

theorem endsAt_exponentLength : EndsAt mark exponentLength := by
  have hletter : isExponentMark mark = false := eq_false_of_mark hmark fun _ hc =>
    punctuation?_of_isIdentifierChar (isIdentifierChar_of_isExponentMark hc)
  have hstart : isIdentifierStart mark = false := eq_false_of_mark hmark fun _ hc =>
    punctuation?_of_isIdentifierChar (isIdentifierChar_of_isIdentifierStart hc)
  have hsigned : EndsAt mark (seqLength signLength digitsLength) :=
    (endsAt_signLength hmark).seq signLength_le (endsAt_digitsLength hmark)
  intro text rest
  cases text with
  | nil =>
    rw [List.nil_append, exponentLength_cons, hletter]
    rfl
  | cons c text =>
    rw [List.cons_append, exponentLength_cons, exponentLength_cons,
      any_head?_append_of_neg hstart, hsigned]

theorem endsAt_decimalLength : EndsAt mark decimalLength := by
  have hle (text : List Char) : unsignedLength text ≤ text.length := by
    have hdigits := digitsLength_le text
    have hfraction := fractionLength_le (text.drop (digitsLength text))
    rw [List.length_drop] at hfraction
    rw [unsignedLength, seqLength]
    omega
  have hunsigned : EndsAt mark unsignedLength :=
    (endsAt_digitsLength hmark).seq digitsLength_le (endsAt_fractionLength hmark)
  exact hunsigned.seq hle (endsAt_exponentLength hmark)

theorem endsAt_numberLength : EndsAt mark numberLength := by
  have hi : mark ≠ 'i' := by
    rintro rfl
    cases hmark
  have hmagnitude : EndsAt mark magnitudeLength := by
    intro text rest
    have hhead : (text ++ mark :: rest).head? = some 'i' ↔ text.head? = some 'i' := by
      cases text with
      | nil => simp [hi]
      | cons c text => rfl
    simp only [magnitudeLength, hhead, endsAt_identifierLength hmark text rest,
      endsAt_decimalLength hmark text rest]
  rw [numberLength_eq]
  exact (endsAt_signLength hmark).seq signLength_le hmagnitude

/-- What is found at the start of a text does not go beyond a mark in it. -/
theorem next?_append_mark {mode : LexicalMode} {text : List Char} (hne : text ≠ [])
    (rest : List Char) : next? mode (text ++ mark :: rest) = next? mode text := by
  obtain ⟨c, text, rfl⟩ := List.exists_cons_of_ne_nil hne
  have hlower : mark.isLower = false := eq_false_of_mark hmark fun _ hc =>
    punctuation?_of_isIdentifierChar (isIdentifierChar_of_isLower hc)
  have hnumber := endsAt_numberLength hmark (c :: text) rest
  have hword := endsAt_identifierLength hmark (c :: text) rest
  have htake : (c :: text ++ mark :: rest).take (identifierLength (c :: text)) =
      (c :: text).take (identifierLength (c :: text)) :=
    List.take_append_of_le_length (identifierLength_le _)
  rw [List.cons_append] at hnumber hword htake ⊢
  rw [next?, next?]
  simp only [takeWhile_append_of_neg hlower, hnumber, hword, htake]

end Marks

end Lexeme

open Lexeme

/-- A token is a label, or it is a punctuation mark, or it has none in it. -/
theorem Lexes.eq_mark_or_unmarked {mode : LexicalMode} {kind : TokenKind}
    {gap text trailing rest : List Char} (h : Lexes mode kind gap text trailing rest) :
    kind = .label ∨ (∃ c, text = [c] ∧ TokenKind.punctuation? c = some kind) ∨
      ∀ c ∈ text, TokenKind.punctuation? c = none := by
  cases h with
  | label => exact .inl rfl
  | lexeme hmode hgap hne hhead hnext =>
    refine .inr ?_
    obtain ⟨c, more, rfl⟩ := List.exists_cons_of_ne_nil hne
    rw [List.cons_append, next?_cons_eq_some_iff] at hnext
    cases hnext with
    | mark hkind hlength =>
      obtain rfl : more = [] := by simpa using hlength
      exact .inl ⟨c, rfl, hkind⟩
    | symbol hmark _ _ hlength =>
      rw [List.length_cons, Nat.add_comm, Nat.add_left_cancel_iff, eq_comm] at hlength
      refine .inr (List.forall_mem_cons.mpr ⟨hmark, fun d hd => ?_⟩)
      exact punctuation?_of_isIdentifierChar
        (isIdentifierChar_of_isLower ((length_takeWhile_append_eq_iff.mp hlength).1 d hd))
    | number _ _ _ _ hlength => exact .inr (punctuation?_of_numberLength hlength.symm)
    | word _ _ _ _ _ hlength =>
      have hword : identifierLength (c :: more ++ rest) = (c :: more).length := hlength.symm
      exact .inr fun d hd =>
        punctuation?_of_isIdentifierChar ((length_takeWhile_append_eq_iff.mp hword).1 d hd)

section Scans

variable {mark : Char} {markKind : TokenKind} {mode : LexicalMode} {cursor : Cursor}
  {text rest : List Char} {tokens : List Token}

/-- A token in which a punctuation mark stands is a label, or it is the mark. -/
theorem kind_of_mem_text (hmark : TokenKind.punctuation? mark = some markKind) {token : Token}
    (htoken : token ∈ (scanFrom mode cursor).tokens) (hmem : mark ∈ token.text.toList) :
    token.kind = .label ∨ token.text.toList = [mark] ∧ token.kind = markKind := by
  fun_induction scanFrom mode cursor with
  | case1 => cases htoken
  | case2 => cases htoken
  | case3 mode cursor first mode' next hstep rest ih =>
    rcases List.mem_cons.mp htoken with rfl | htoken
    · obtain ⟨kind, gap, text, trailing, left, -, hlexes, -, rfl, -⟩ :=
        scanStep_eq_token_iff.mp hstep
      rw [String.toList_ofList] at hmem ⊢
      obtain hlabel | ⟨c, rfl, hkind⟩ | hunmarked := hlexes.eq_mark_or_unmarked
      · exact .inl hlabel
      · obtain rfl := List.mem_singleton.mp hmem
        exact .inr ⟨rfl, Option.some.inj (hkind.symm.trans hmark)⟩
      · cases hmark.symm.trans (hunmarked mark hmem)
    · exact ih htoken

/-- A punctuation mark in a text is a token unless it stands in a label. -/
theorem exists_token_of_mark (hmark : TokenKind.punctuation? mark = some markKind)
    (hrest : cursor.rest = text ++ mark :: rest) (h : scanFrom mode cursor = ⟨tokens, none⟩) :
    (∃ token ∈ tokens, token.kind = .label ∧ mark ∈ token.text.toList) ∨
      ∃ before token after, tokens = before ++ token :: after ∧ token.kind = markKind ∧
        (∀ earlier ∈ before, earlier.stop ≤ cursor.position + byteLength text) ∧
        ∀ later ∈ token :: after, cursor.position + byteLength text ≤ later.position := by
  have htokens : (scanFrom mode cursor).tokens = tokens := by rw [h]
  obtain ⟨token, hmem, hcovers⟩ :
      ∃ token ∈ tokens, token.Covers (cursor.position + byteLength text) := by
    by_contra hnone
    have hblank := isBlank_of_uncovered mode cursor text mark rest hrest
      (fun token htoken hcovers => hnone ⟨token, htokens ▸ htoken, hcovers⟩) (by simp [h])
    rw [isBlank_of_mark hmark] at hblank
    cases hblank
  rw [← htokens] at hmem
  obtain ⟨front, back, hplace, hposition, -⟩ := exists_place_of_mem_scanFrom mode cursor token hmem
  rw [Token.Covers, Token.stop, hposition] at hcovers
  obtain ⟨more, rfl, hmore⟩ :=
    exists_append_of_byteLength_le (hrest.symm.trans hplace) (by omega)
  rw [byteLength_append] at hcovers
  obtain ⟨left, htext, -⟩ | ⟨left, rfl, -⟩ := append_cons_eq_append_iff.mp hmore.symm
  · obtain hlabel | ⟨hmarked, hkind⟩ := kind_of_mem_text hmark hmem (by simp [htext])
    · exact .inl ⟨token, htokens ▸ hmem, hlabel, by simp [htext]⟩
    · right
      obtain rfl : more = [] := by
        rw [hmarked, eq_comm, List.append_eq_singleton_iff] at htext
        simp only [List.cons.injEq, reduceCtorEq, and_false, or_false] at htext
        exact htext.1
      rw [List.append_nil, ← hposition]
      obtain ⟨before, after, hsplit⟩ := List.append_of_mem hmem
      have hpairwise := pairwise_scanFrom mode cursor
      rw [hsplit, List.pairwise_append, List.pairwise_cons] at hpairwise
      obtain ⟨-, ⟨hafter, -⟩, hbefore⟩ := hpairwise
      refine ⟨before, token, after, htokens ▸ hsplit, hkind,
        fun earlier hearlier => hbefore earlier hearlier token List.mem_cons_self,
        List.forall_mem_cons.mpr ⟨Nat.le_refl _, fun later hlater => ?_⟩⟩
      have hstop := hafter later hlater
      rw [Token.stop] at hstop
      omega
  · rw [byteLength_append] at hcovers
    omega

/-- A mark that comes next is the first token, and the scan goes on behind it. -/
theorem exists_scanFrom_of_mark (hmode : mode ≠ .label)
    (hmark : TokenKind.punctuation? mark = some markKind) (hrest : cursor.rest = mark :: rest)
    (h : scanFrom mode cursor = ⟨tokens, none⟩) :
    ∃ token after next, tokens = token :: after ∧ token.lexeme = (markKind, .singleton mark) ∧
      next.rest = rest ∧ scanFrom (mode.after markKind) next = ⟨after, none⟩ := by
  obtain ⟨taken, next, htaken, hnext, hscan⟩ := Scans.mark hmode hmark cursor hrest
  obtain ⟨token, none, rfl, htoken, hnone⟩ := List.map_eq_cons_iff.mp htaken
  obtain rfl := List.map_eq_nil_iff.mp hnone
  rw [h, Scan.mk.injEq] at hscan
  obtain ⟨rfl, hstray⟩ := hscan
  exact ⟨token, _, next, rfl, htoken, hnext, congrArg (Scan.mk _) hstray.symm⟩

/-- In a parameter block a text is scanned into the given tokens whichever mark comes next. -/
def ScansBeforeMark (text : List Char) (tokens : List Token) : Prop :=
  ∀ (mark : Char) (kind : TokenKind) (rest : List Char), TokenKind.punctuation? mark = some kind →
    Scans .block text (mark :: rest) (tokens.map Token.lexeme) .block

/-- The tokens of a text in a parameter block up to a mark. They are the same before any other
    mark. -/
theorem exists_scans_of_scanFrom (hmark : TokenKind.punctuation? mark = some markKind)
    (htext : ∀ c ∈ text, c ∉ [',', ':', '\x7b', '\x7d'])
    (hrest : cursor.rest = text ++ mark :: rest) (h : scanFrom .block cursor = ⟨tokens, none⟩) :
    ∃ piece more next, tokens = piece ++ more ∧ next.rest = mark :: rest ∧
      scanFrom .block next = ⟨more, none⟩ ∧
      (∀ token ∈ piece, token.kind ≠ .comma ∧ token.kind ≠ .colon ∧ token.kind ≠ .closeBrace) ∧
      ScansBeforeMark text piece := by
  induction tokens generalizing text cursor with
  | nil =>
    have hblank := allBlank_of_scanFrom h mark (by simp [hrest])
    rw [isBlank_of_mark hmark] at hblank
    cases hblank
  | cons token tokens ih =>
    obtain ⟨kind, gap, lexeme, trailing, next, hsplit, hlexes, htoken, -, -, hscan⟩ :=
      exists_lexes_of_scanFrom_cons h
    have hgap := hlexes.allBlank_gap
    cases hlexes with
    | lexeme hmode _ hne hhead hnext =>
      rw [hrest, List.append_nil, List.append_assoc] at hsplit
      obtain ⟨left, rfl, -⟩ | ⟨left, rfl, hleft⟩ := append_cons_eq_append_iff.mp hsplit
      · have hblank := hgap mark (by simp)
        rw [isBlank_of_mark hmark] at hblank
        cases hblank
      obtain hfound := eq_mark_or_unmarked_of_next? hnext
      obtain ⟨more, rfl, -⟩ | ⟨more, rfl, hmore⟩ := append_cons_eq_append_iff.mp hleft.symm
      · -- the mark is the first token
        obtain ⟨c, hc, -⟩ | ⟨hunmarked, -⟩ := hfound
        · rw [List.append_eq_singleton_iff] at hc
          simp only [List.cons.injEq, reduceCtorEq, and_false, or_false] at hc
          obtain rfl := hc.1
          rw [List.append_nil] at hrest ⊢
          refine ⟨[], token :: tokens, _, rfl, rfl, (scanFrom_of_gap hrest hgap).symm.trans h,
            List.forall_mem_nil _, fun _ _ _ _ => .blank hgap⟩
        · cases hmark.symm.trans (hunmarked mark (by simp))
      · have hwithin : kind ≠ .comma ∧ kind ≠ .colon ∧ kind ≠ .closeBrace := by
          obtain ⟨c, rfl, hkind⟩ | ⟨-, rfl | rfl⟩ := hfound
          · exact kind_of_not_mem hkind (htext c (by simp))
          · decide
          · decide
        have hblock := LexicalMode.next_block hwithin.2.2 hwithin.2.1
        rw [hblock] at hscan
        obtain ⟨piece, after, next', rfl, hnext', hafter, hpiece, hscans⟩ :=
          ih (fun c hc => htext c (by simp [hc])) hmore hscan
        refine ⟨token :: piece, after, next', rfl, hnext', hafter,
          List.forall_mem_cons.mpr ⟨by rwa [htoken], hpiece⟩, fun mark' kind' rest' hmark' => ?_⟩
        rw [hmore, ← List.append_assoc, next?_append_mark hmark (by simp [hne])] at hnext
        have hlexes' : Lexes .block kind gap lexeme [] (more ++ mark' :: rest') := by
          refine .lexeme hmode hgap hne hhead ?_
          rw [← List.append_assoc, next?_append_mark hmark' (by simp [hne]), hnext]
        have hfirst := hlexes'.scans
        rw [hblock, List.append_nil] at hfirst
        rw [← List.append_assoc, htoken]
        exact hfirst.cons (hscans mark' kind' rest' hmark')

end Scans

end CircuitCode
