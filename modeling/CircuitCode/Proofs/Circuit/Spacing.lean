import CircuitCode.Proofs.Parsing.Places
import CircuitCode.Proofs.Token.Lookahead
import CircuitCode.Proofs.Token.Lossless

/-!
# Blanks between tokens

Blanks may be put in between the tokens of a text. The text then has the same tokens, with one
exception: a symbol `e` or `E` that stands right after a number becomes part of it when a blank is
put in between the symbol and the one right after it (`Severs`). A number outside a parameter block
is refused in any case, so the parser answers the same without exception (`insertBlanks_ignored`).
-/

namespace CircuitCode

/-- A text with blanks after each of its characters. The blanks are given by the position at which
    they are put in, and the text starts at the given position. -/
def insertWithin (blanks : Nat → List Char) : Nat → List Char → List Char
  | _, [] => []
  | position, c :: rest =>
    c :: (blanks (position + c.utf8Size) ++ insertWithin blanks (position + c.utf8Size) rest)

/-- A text with blanks put in at each position, including the start and the end. -/
def insertBlanks (blanks : Nat → List Char) (text : List Char) : List Char :=
  blanks 0 ++ insertWithin blanks 0 text

/-- Nothing but blanks is put in, and not inside a token. -/
structure Spacing (blanks : Nat → List Char) (tokens : List Token) : Prop where
  blank : ∀ position, AllBlank (blanks position)
  between : ∀ token ∈ tokens, ∀ position, token.position < position → position < token.stop →
    blanks position = []

/-- Blanks put in right after a symbol that could start the exponent of the number right before
    it, and that does not do so only because a letter follows. -/
structure Severed (blanks : Nat → List Char) (number mark next : Token) : Prop where
  isNumber : number.kind = .number
  unmarked : number.text.toList.any Lexeme.isExponentMark = false
  isSymbol : mark.kind = .symbol
  isMark : mark.text = "e" ∨ mark.text = "E"
  adjacent : number.stop = mark.position ∧ mark.stop = next.position
  inserted : blanks mark.position = [] ∧ blanks next.position ≠ []

/-- Blanks are put in somewhere such that a number takes in the symbol after it. -/
def Severs (blanks : Nat → List Char) (tokens : List Token) : Prop :=
  ∃ number mark next, [number, mark, next] <:+: tokens ∧ Severed blanks number mark next

section Insertion

variable {blanks : Nat → List Char} {position : Nat} {text : List Char}

theorem insertWithin_append (position : Nat) (text text' : List Char) :
    insertWithin blanks position (text ++ text') =
      insertWithin blanks position text ++
        insertWithin blanks (position + byteLength text) text' := by
  induction text generalizing position with
  | nil => rfl
  | cons c text ih =>
    rw [List.cons_append, insertWithin, insertWithin, ih, byteLength_cons, Nat.add_assoc]
    simp only [List.cons_append, List.append_assoc]

theorem head?_insertWithin : (insertWithin blanks position text).head? = text.head? := by
  cases text <;> rfl

/-- Nothing is put in inside a token, and only what is put in at its end follows it. -/
theorem insertWithin_token (hne : text ≠ [])
    (hinside : ∀ q, position < q → q < position + byteLength text → blanks q = []) :
    insertWithin blanks position text = text ++ blanks (position + byteLength text) := by
  induction text generalizing position with
  | nil => exact absurd rfl hne
  | cons c text ih =>
    have hc := c.utf8Size_pos
    rw [byteLength_cons] at hinside ⊢
    rw [insertWithin]
    cases text with
    | nil => simp [insertWithin, byteLength]
    | cons d text =>
      have hd := d.utf8Size_pos
      have hlength := byteLength_cons d text
      rw [hinside _ (by omega) (by omega), List.nil_append,
        ih (List.cons_ne_nil _ _) fun q hlow hhigh => hinside q (by omega) (by omega),
        Nat.add_assoc]
      rfl

theorem allBlank_insertWithin (hblank : ∀ position, AllBlank (blanks position))
    (htext : AllBlank text) : AllBlank (insertWithin blanks position text) := by
  induction text generalizing position with
  | nil => exact .nil
  | cons c text ih =>
    obtain ⟨hc, htext⟩ := List.forall_mem_cons.mp htext
    exact List.forall_mem_cons.mpr ⟨hc, (hblank _).append (ih htext)⟩

theorem AllBlank.all_head? (h : AllBlank text) (rest : List Char) (hne : text ≠ []) :
    (text ++ rest).head?.all isBlank = true := by
  obtain ⟨c, text, rfl⟩ := List.exists_cons_of_ne_nil hne
  exact h c List.mem_cons_self

/-- What comes after a token can take the place of what came there before. -/
theorem follows_insertWithin (hblank : ∀ position, AllBlank (blanks position)) :
    Follows text (blanks position ++ insertWithin blanks position text) := by
  by_cases hnone : blanks position = []
  · rw [hnone]
    exact .inr head?_insertWithin
  · exact .inl ((hblank position).all_head? _ hnone)

end Insertion

/-- A token stays the same when blanks are put in around it, if this makes no number longer. -/
theorem Lexes.insertWithin {blanks : Nat → List Char}
    (hblank : ∀ position, AllBlank (blanks position)) {mode : LexicalMode} {kind : TokenKind}
    {gap text trailing rest : List Char} (h : Lexes mode kind gap text trailing rest)
    {position : Nat}
    (hinside : ∀ q, position < q → q < position + byteLength text → blanks q = [])
    (hnone : kind = .number → text.any Lexeme.isExponentMark = false →
      Lexeme.exponentLength (blanks (position + byteLength text) ++
        CircuitCode.insertWithin blanks (position + byteLength text) rest) = 0)
    {lead : List Char} (hlead : AllBlank lead) :
    ∃ trailing' lead', AllBlank lead' ∧
      CircuitCode.insertWithin blanks position (text ++ (trailing ++ rest)) =
        text ++ (trailing' ++ (lead' ++ CircuitCode.insertWithin blanks
          (position + byteLength (text ++ trailing)) rest)) ∧
      Lexes mode kind lead text trailing' (lead' ++ CircuitCode.insertWithin blanks
          (position + byteLength (text ++ trailing)) rest) := by
  cases h with
  | lexeme hmode hgap hne hhead hnext =>
    refine ⟨[], _, hblank (position + byteLength text), ?_, ?_⟩
    · rw [List.append_nil, List.nil_append, List.nil_append, insertWithin_append,
        insertWithin_token hne hinside, List.append_assoc]
    · rw [List.append_nil]
      exact .lexeme hmode hlead hne hhead
        (Lexeme.next?_of_follows hnext (follows_insertWithin hblank) hnone)
  | label hgap htrimmed hbrace htrailing hempty hne hrest =>
    have hrest' (position : Nat) : CircuitCode.insertWithin blanks position rest = [] ∨
        (CircuitCode.insertWithin blanks position rest).head? = some '\x7d' := by
      rw [head?_insertWithin]
      refine hrest.imp_left ?_
      rintro rfl
      rfl
    by_cases htext : text = []
    · obtain rfl := hempty htext
      subst htext
      refine ⟨[], [], .nil, rfl, .label hlead htrimmed hbrace .nil (fun _ => rfl) ?_ (hrest' _)⟩
      intro hnil
      rw [List.nil_append, List.nil_append] at hnil
      rw [List.nil_append] at hne
      obtain ⟨c, rest, rfl⟩ := List.exists_cons_of_ne_nil hne
      cases hnil
    · refine ⟨blanks (position + byteLength text) ++
          CircuitCode.insertWithin blanks (position + byteLength text) trailing, [], .nil, ?_,
        .label hlead htrimmed hbrace ((hblank _).append (allBlank_insertWithin hblank htrailing))
          (fun h => absurd h htext) (fun h => htext (List.append_eq_nil_iff.mp h).1) (hrest' _)⟩
      rw [insertWithin_append, insertWithin_append, insertWithin_token htext hinside,
        byteLength_append, Nat.add_assoc]
      simp only [List.append_assoc, List.nil_append]

open Lexeme

variable {blanks : Nat → List Char}

/-- Blanks make an exponent of a text that is none only if they are put in after its mark. -/
theorem exists_mark_of_exponentLength (hblank : ∀ position, AllBlank (blanks position))
    {position : Nat} {rest : List Char} (hnone : exponentLength rest = 0)
    (hsome : exponentLength (blanks position ++ insertWithin blanks position rest) ≠ 0) :
    blanks position = [] ∧ blanks (position + 1) ≠ [] ∧ ∃ mark more, rest = mark :: more ∧
      isExponentMark mark = true ∧ more.head?.any isIdentifierStart = true := by
  obtain ⟨mark, more', hcons, hmark, hmore'⟩ := any_head?_of_exponentLength_pos hsome
  have hempty : blanks position = [] := by
    by_contra hne
    have hhead := (hblank position).all_head? (insertWithin blanks position rest) hne
    rw [hcons, List.head?_cons, Option.all_some, isBlank_of_isExponentMark hmark] at hhead
    cases hhead
  rw [hempty, List.nil_append] at hcons
  cases rest with
  | nil => cases hcons
  | cons c more =>
    obtain ⟨rfl, rfl⟩ := List.cons.inj hcons
    have hmore : more.head?.any isIdentifierStart = true := by
      by_contra hmore
      rw [Bool.not_eq_true] at hmore
      rw [exponentLength_cons, hmark, hmore, Bool.not_false, Bool.and_self, if_pos rfl] at hnone
      omega
    rw [utf8Size_of_isExponentMark hmark] at hmore'
    refine ⟨hempty, ?_, c, more, rfl, hmark, hmore⟩
    intro hnext
    rw [hnext, List.nil_append, head?_insertWithin, hmore] at hmore'
    cases hmore'

/-- A mark before a letter is a token of its own only if it is a symbol outside a block. The token
    after it stands right there. -/
theorem exists_tokens_of_isExponentMark {mode : LexicalMode} {mark : Char} {more : List Char}
    {position column : Nat} (hmode : mode ≠ .label) (hmark : isExponentMark mark = true)
    (hmore : more.head?.any isIdentifierStart = true) (hnext : blanks (position + 1) ≠ [])
    (hstray : (scanFrom mode ⟨mark :: more, position, column⟩).stray = none)
    (hinside : ∀ token ∈ (scanFrom mode ⟨mark :: more, position, column⟩).tokens,
      ∀ q, token.position < q → q < token.stop → blanks q = []) :
    mode = .outside ∧ ∃ next after, (scanFrom mode ⟨mark :: more, position, column⟩).tokens =
        ⟨.symbol, String.ofList [mark], position, column⟩ :: next :: after ∧
      next.position = position + 1 := by
  have hstart {c : Char} (hc : isIdentifierStart c = true) : isBlank c = false :=
    isBlank_of_isIdentifierChar (isIdentifierChar_of_isIdentifierStart hc)
  have hrest : (⟨mark :: more, position, column⟩ : Cursor).rest = mark :: more := rfl
  obtain ⟨kind, text, trailing, left, hsplit, hlexes, cursor, hcursor, hscan⟩ :=
    exists_lexes_of_not_isBlank hrest (hstart (isIdentifierStart_of_isExponentMark hmark)) hstray
  rw [hscan] at hstray hinside
  cases hlexes with
  | label => exact absurd rfl hmode
  | lexeme _ _ hne _ hfound =>
    obtain ⟨c, tail, rfl⟩ := List.exists_cons_of_ne_nil hne
    obtain ⟨rfl, hmoreEq⟩ := List.cons.inj hsplit
    rw [List.cons_append, next?_cons_eq_some_iff] at hfound
    -- nothing is put in inside a token, so the mark is all of it
    obtain rfl : tail = [] := by
      by_contra htail
      obtain ⟨d, tail, rfl⟩ := List.exists_cons_of_ne_nil htail
      refine hnext (hinside _ List.mem_cons_self (position + 1) (Nat.lt_succ_self _) ?_)
      have hd := d.utf8Size_pos
      rw [Token.stop, String.toList_ofList, byteLength_cons, byteLength_cons,
        utf8Size_of_isExponentMark hmark]
      dsimp only
      omega
    obtain rfl : more = left := hmoreEq
    obtain ⟨d, more, rfl⟩ : ∃ d rest, more = d :: rest := by
      cases more with
      | nil => cases hmore
      | cons d more => exact ⟨d, more, rfl⟩
    have hsize : byteLength [mark] = 1 := utf8Size_of_isExponentMark hmark
    rcases found_of_isExponentMark hmark hfound with ⟨rfl, rfl⟩ | ⟨-, hword⟩
    · have hrest' : cursor.rest = d :: more := by rw [hcursor]
      obtain ⟨kind', text', trailing', left', -, -, cursor', -, hscan'⟩ :=
        exists_lexes_of_not_isBlank hrest' (hstart hmore) hstray
      refine ⟨rfl, _, _, by rw [hscan, hscan'], ?_⟩
      rw [hcursor, List.append_nil, hsize]
    · have hlength : identifierLength ([mark] ++ d :: more) = [mark].length := hword.symm
      have hend := (length_takeWhile_append_eq_iff.mp hlength).2
      rw [List.head?_cons, Option.any_some, isIdentifierChar_of_isIdentifierStart hmore] at hend
      cases hend

/-- Where blanks make a number longer, they are put in after the token right after it. -/
theorem severs_head_iff (hblank : ∀ position, AllBlank (blanks position)) {mode : LexicalMode}
    {number : Token} (cursor : Cursor) (hmode : mode ≠ .label) (hkind : number.kind = .number)
    (hstop : number.stop = cursor.position)
    (hunmarked : number.text.toList.any isExponentMark = false)
    (hnone : exponentLength cursor.rest = 0) (hstray : (scanFrom mode cursor).stray = none)
    (hinside : ∀ token ∈ (scanFrom mode cursor).tokens, ∀ q, token.position < q →
      q < token.stop → blanks q = []) :
    exponentLength (blanks cursor.position ++ insertWithin blanks cursor.position cursor.rest) ≠ 0 ↔
      ∃ mark next after, (scanFrom mode cursor).tokens = mark :: next :: after ∧
        Severed blanks number mark next := by
  obtain ⟨rest, position, column⟩ := cursor
  dsimp only at hstop hnone ⊢
  constructor
  · intro hsome
    obtain ⟨hempty, hnext, mark, more, rfl, hmark, hmore⟩ :=
      exists_mark_of_exponentLength hblank hnone hsome
    obtain ⟨rfl, next, after, htokens, hposition⟩ :=
      exists_tokens_of_isExponentMark hmode hmark hmore hnext hstray hinside
    refine ⟨_, next, after, htokens, hkind, hunmarked, rfl, ?_, ⟨hstop, ?_⟩, hempty, ?_⟩
    · simp only [isExponentMark, Bool.or_eq_true, beq_iff_eq] at hmark
      exact hmark.imp (fun h => by rw [h]) fun h => by rw [h]
    · rw [hposition, Token.stop, String.toList_ofList]
      exact congrArg (position + ·) (utf8Size_of_isExponentMark hmark)
    · rwa [hposition]
  · rintro ⟨mark, next, after, htokens, hsevered⟩
    obtain ⟨c, hc, hmark⟩ : ∃ c, mark.text.toList = [c] ∧ isExponentMark c = true := by
      rcases hsevered.isMark with h | h <;> rw [h]
      · exact ⟨'e', rfl, rfl⟩
      · exact ⟨'E', rfl, rfl⟩
    obtain ⟨before, more, hrest, hposition, -⟩ := exists_place_of_mem_scanFrom mode
      ⟨rest, position, column⟩ mark (by rw [htokens]; exact List.mem_cons_self)
    dsimp only at hrest hposition
    have hplace : mark.position = position := hsevered.adjacent.1.symm.trans hstop
    obtain rfl : before = [] := eq_nil_of_byteLength (by omega)
    rw [List.nil_append, hc] at hrest
    subst hrest
    have hnext : next.position = position + 1 := by
      rw [← hsevered.adjacent.2, Token.stop, hplace, hc]
      exact congrArg (position + ·) (utf8Size_of_isExponentMark hmark)
    obtain ⟨hempty, hinserted⟩ := hsevered.inserted
    rw [hplace] at hempty
    rw [hnext] at hinserted
    rw [hempty, List.nil_append, List.singleton_append, insertWithin,
      utf8Size_of_isExponentMark hmark,
      exponentLength_mark hmark ((hblank _).all_head? _ hinserted)]
    exact one_ne_zero

theorem severs_cons_iff {token : Token} {tokens : List Token} :
    Severs blanks (token :: tokens) ↔
      (∃ mark next after, tokens = mark :: next :: after ∧ Severed blanks token mark next) ∨
        Severs blanks tokens := by
  constructor
  · rintro ⟨number, mark, next, hinfix, hsevered⟩
    rcases List.infix_cons_iff.mp hinfix with hprefix | hinfix
    · obtain ⟨rfl, after, htokens⟩ := List.cons_prefix_cons.mp hprefix
      exact .inl ⟨mark, next, after, htokens.symm, hsevered⟩
    · exact .inr ⟨number, mark, next, hinfix, hsevered⟩
  · rintro (⟨mark, next, after, rfl, hsevered⟩ | ⟨number, mark, next, hinfix, hsevered⟩)
    · exact ⟨token, mark, next, ⟨[], after, rfl⟩, hsevered⟩
    · exact ⟨number, mark, next, List.infix_cons hinfix, hsevered⟩

/-- What holds of the tokens of a text and of those of the text with blanks put in. -/
structure Respaced (blanks : Nat → List Char) (mode : LexicalMode) (scan scan' : Scan) : Prop where
  stray : scan'.stray = none
  agree : Agree mode scan.tokens scan'.tokens
  lexemes : scan'.tokens.map Token.lexeme = scan.tokens.map Token.lexeme ↔
    ¬ Severs blanks scan.tokens

theorem Respaced.cons {mode : LexicalMode} {scan scan' : Scan} {token token' : Token}
    (hlexeme : token.lexeme = token'.lexeme)
    (hhead : ∀ mark next after, scan.tokens = mark :: next :: after →
      ¬ Severed blanks token mark next)
    (h : Respaced blanks (mode.next token.kind) scan scan') :
    Respaced blanks mode ⟨token :: scan.tokens, scan.stray⟩
      ⟨token' :: scan'.tokens, scan'.stray⟩ where
  stray := h.stray
  agree := .cons hlexeme h.agree
  lexemes := by
    have hnot : ¬ ∃ mark next after, scan.tokens = mark :: next :: after ∧
        Severed blanks token mark next := fun ⟨mark, next, after, htokens, hsevered⟩ =>
      hhead mark next after htokens hsevered
    rw [severs_cons_iff, or_iff_right hnot, ← h.lexemes, List.map_cons, List.map_cons, hlexeme,
      List.cons.injEq, and_iff_right rfl]

/-- A mark with a blank after it is scanned as a symbol. -/
theorem scanFrom_mark {mark : Char} {rest : List Char} (hmark : isExponentMark mark = true)
    (hrest : rest.head?.all isBlank = true) (position column : Nat) :
    scanFrom .outside ⟨mark :: rest, position, column⟩ =
      ⟨⟨.symbol, String.ofList [mark], position, column⟩ ::
          (scanFrom .outside ⟨rest, position + 1, column + 1⟩).tokens,
        (scanFrom .outside ⟨rest, position + 1, column + 1⟩).stray⟩ := by
  have hfollows : Follows [] rest := .inl hrest
  have hnext : next? .outside ([mark] ++ rest) = some (.symbol, [mark].length) := by
    have halone : next? .outside ([mark] ++ []) = some (.symbol, [mark].length) := by
      simp only [isExponentMark, Bool.or_eq_true, beq_iff_eq] at hmark
      rcases hmark with rfl | rfl <;> rfl
    exact next?_of_follows halone hfollows (fun hkind => absurd hkind (by decide))
  have hlexes : Lexes .outside .symbol [] [mark] [] rest :=
    .lexeme (by decide) .nil (by simp) (isBlank_of_isExponentMark hmark) hnext
  have hsize : byteLength [mark] = 1 := utf8Size_of_isExponentMark hmark
  have hstep : scanStep .outside ⟨mark :: rest, position, column⟩ = _ := hlexes.scanStep_eq rfl
  rw [scanFrom_of_token hstep, List.append_nil, hsize]
  rfl

/-- A number that takes in the symbol after it is still a number, and the parser goes no further. -/
theorem respaced_of_severed {text more more' gap : List Char} {mark : Char} {scan : Scan}
    {position column : Nat} {cursor : Cursor} (hgap : AllBlank gap)
    (hmark : isExponentMark mark = true) (hunmarked : text.any isExponentMark = false)
    (hhead : text.head?.any isBlank = false)
    (hnext : next? .outside (text ++ mark :: more) = some (.number, text.length))
    (hmore' : more'.head?.all isBlank = true)
    (hrest : cursor.rest = gap ++ (text ++ mark :: more'))
    (hstray : ∀ position column, (scanFrom .outside ⟨mark :: more', position, column⟩).stray = none)
    (hsevers : Severs blanks (⟨.number, String.ofList text, position, column⟩ :: scan.tokens)) :
    Respaced blanks .outside
      ⟨⟨.number, String.ofList text, position, column⟩ :: scan.tokens, scan.stray⟩
      (scanFrom .outside cursor) := by
  have hlexes : Lexes .outside .number gap (text ++ [mark]) [] more' := by
    refine .lexeme (by decide) hgap (by simp) ?_ ?_
    · rw [List.head?_append_of_ne_nil _ (List.ne_nil_of_length_pos (next?_pos hnext)), hhead]
    · rw [List.append_assoc, List.singleton_append, List.length_append,
        next?_of_mark hnext hunmarked hmark hmore']
      rfl
  have hstep : scanStep .outside cursor = _ := hlexes.scanStep_eq (by simpa using hrest)
  have hscan := hstray (cursor.position + byteLength gap + byteLength text)
    (cursor.column + gap.length + text.length)
  have hsize : byteLength [mark] = 1 := utf8Size_of_isExponentMark hmark
  rw [scanFrom_mark hmark hmore'] at hscan
  rw [scanFrom_of_token hstep, List.append_nil, byteLength_append, hsize, List.length_append]
  refine ⟨hscan, .number rfl rfl, iff_of_false ?_ (not_not.mpr hsevers)⟩
  intro hlexemes
  have htext : String.ofList (text ++ [mark]) = String.ofList text :=
    congrArg Prod.snd (List.cons.inj hlexemes).1
  have hlist := congrArg String.toList htext
  rw [String.toList_ofList, String.toList_ofList] at hlist
  exact List.cons_ne_nil _ _ (List.append_right_eq_self.mp hlist)

/-- Whether blanks make a number longer that was just scanned. -/
theorem Lexes.severs_iff (hblank : ∀ position, AllBlank (blanks position)) {mode : LexicalMode}
    {gap text trailing left : List Char} (h : Lexes mode .number gap text trailing left)
    {position column' : Nat} (column : Nat) (hunmarked : text.any isExponentMark = false)
    (hstray : (scanFrom mode
      ⟨left, position + byteLength (text ++ trailing), column'⟩).stray = none)
    (hinside : ∀ token ∈ (scanFrom mode
      ⟨left, position + byteLength (text ++ trailing), column'⟩).tokens,
      ∀ q, token.position < q → q < token.stop → blanks q = []) :
    exponentLength (blanks (position + byteLength text) ++
        CircuitCode.insertWithin blanks (position + byteLength text) left) ≠ 0 ↔
      ∃ mark next after, (scanFrom mode
        ⟨left, position + byteLength (text ++ trailing), column'⟩).tokens = mark :: next :: after ∧
        Severed blanks ⟨.number, String.ofList text, position, column⟩ mark next := by
  cases h with
  | lexeme hmode _ _ _ hnext =>
    rw [List.append_nil] at hstray hinside ⊢
    refine severs_head_iff hblank ⟨left, position + byteLength text, column'⟩ hmode rfl
      ?_ ?_ (exponentLength_of_next? hnext hunmarked) hstray hinside
    · rw [Token.stop, String.toList_ofList]
    · rwa [String.toList_ofList]

/-- Where blanks make a number longer, the scan with the blanks agrees with the scan without them
    up to the number. -/
theorem Lexes.respaced_of_longer (hblank : ∀ position, AllBlank (blanks position))
    {mode : LexicalMode} {gap text trailing left : List Char}
    (h : Lexes mode .number gap text trailing left) {position column column' : Nat}
    (hunmarked : text.any isExponentMark = false)
    (hlonger : exponentLength (blanks (position + byteLength text) ++
        CircuitCode.insertWithin blanks (position + byteLength text) left) ≠ 0)
    (htoken : ∀ q, position < q → q < position + byteLength text → blanks q = []) {scan : Scan}
    (hscan : scan = scanFrom mode ⟨left, position + byteLength (text ++ trailing), column'⟩)
    (hstray : scan.stray = none)
    (hinside : ∀ token ∈ scan.tokens, ∀ q, token.position < q → q < token.stop → blanks q = [])
    (hrespaced : ∀ cursor, cursor.rest =
      CircuitCode.insertWithin blanks (position + byteLength (text ++ trailing)) left →
        Respaced blanks mode scan (scanFrom mode cursor))
    {cursor : Cursor} {lead : List Char} (hlead : AllBlank lead)
    (hrest : cursor.rest =
      lead ++ CircuitCode.insertWithin blanks position (text ++ (trailing ++ left))) :
    Respaced blanks mode
      ⟨⟨.number, String.ofList text, position, column⟩ :: scan.tokens, scan.stray⟩
      (scanFrom mode cursor) := by
  have hsevers := severs_cons_iff.mpr (.inl ((h.severs_iff hblank column hunmarked
    (hscan ▸ hstray) (hscan ▸ hinside)).mp hlonger))
  rw [← hscan] at hsevers
  cases h with
  | lexeme hmode hgap hne hhead hnext =>
    rw [List.append_nil] at hscan hrespaced
    obtain ⟨hempty, hinserted, mark, more, rfl, hmark, hmore⟩ :=
      exists_mark_of_exponentLength hblank (exponentLength_of_next? hnext hunmarked) hlonger
    subst hscan
    obtain ⟨rfl, -⟩ :=
      exists_tokens_of_isExponentMark hmode hmark hmore hinserted hstray hinside
    have hinsert : CircuitCode.insertWithin blanks (position + byteLength text) (mark :: more) =
        mark :: (blanks (position + byteLength text + 1) ++ CircuitCode.insertWithin blanks
          (position + byteLength text + 1) more) := by
      rw [CircuitCode.insertWithin, utf8Size_of_isExponentMark hmark]
    have hblankHead := (hblank (position + byteLength text + 1)).all_head?
      (CircuitCode.insertWithin blanks (position + byteLength text + 1) more) hinserted
    refine respaced_of_severed hlead hmark hunmarked hhead hnext hblankHead ?_
      (fun position column => ?_) hsevers
    · rw [hrest, List.nil_append, insertWithin_append, insertWithin_token hne htoken, hempty,
        List.append_nil, hinsert]
    · exact (hrespaced ⟨_, position, column⟩ hinsert.symm).stray

/-- Blanks change nothing but that a number may take in the symbol after it. The induction is on
    the scan of the text, and the blanks that are still to be passed over are carried along. -/
theorem respaced_scanFrom (hblank : ∀ position, AllBlank (blanks position)) (mode : LexicalMode)
    (cursor : Cursor) (hstray : (scanFrom mode cursor).stray = none)
    (hinside : ∀ token ∈ (scanFrom mode cursor).tokens, ∀ position, token.position < position →
      position < token.stop → blanks position = [])
    (cursor' : Cursor) (lead : List Char) (hlead : AllBlank lead)
    (hrest : cursor'.rest = lead ++ insertWithin blanks cursor.position cursor.rest) :
    Respaced blanks mode (scanFrom mode cursor) (scanFrom mode cursor') := by
  fun_induction scanFrom mode cursor generalizing cursor' lead with
  | case1 mode cursor h =>
    have hfinished : scanStep mode cursor' = .finished := by
      rw [scanStep_eq_finished_iff, hrest]
      exact hlead.append (allBlank_insertWithin hblank (scanStep_eq_finished_iff.mp h))
    rw [scanFrom_of_finished hfinished]
    refine ⟨rfl, .nil, iff_of_true rfl ?_⟩
    rintro ⟨number, mark, next, hinfix, -⟩
    cases hinfix.length_le
  | case2 mode cursor stray h => cases hstray
  | case3 mode cursor token mode' next hstep rest ih =>
    obtain ⟨kind, gap, text, trailing, left, hsplit, hlexes, rfl, rfl, rfl⟩ :=
      scanStep_eq_token_iff.mp hstep
    obtain ⟨htoken, hothers⟩ := List.forall_mem_cons.mp hinside
    have hbefore : AllBlank (lead ++ insertWithin blanks cursor.position gap) :=
      hlead.append (allBlank_insertWithin hblank hlexes.allBlank_gap)
    rw [hsplit, insertWithin_append, ← List.append_assoc] at hrest
    rw [Token.stop, String.toList_ofList] at htoken
    dsimp only at htoken
    have hiff (hkind : kind = .number) (hunmarked : text.any isExponentMark = false) :
        exponentLength (blanks (cursor.position + byteLength gap + byteLength text) ++
            insertWithin blanks (cursor.position + byteLength gap + byteLength text) left) ≠ 0 ↔
          ∃ mark next after, rest.tokens = mark :: next :: after ∧ Severed blanks
            ⟨.number, String.ofList text, cursor.position + byteLength gap,
              cursor.column + gap.length⟩ mark next := by
      subst hkind
      exact hlexes.severs_iff hblank _ hunmarked hstray hothers
    by_cases hlonger : kind = .number ∧ text.any isExponentMark = false ∧
        exponentLength (blanks (cursor.position + byteLength gap + byteLength text) ++ insertWithin
          blanks (cursor.position + byteLength gap + byteLength text) left) ≠ 0
    · obtain ⟨rfl, hunmarked, hsome⟩ := hlonger
      exact hlexes.respaced_of_longer hblank hunmarked hsome htoken rfl hstray hothers
        (fun cursor' hrest' => ih hstray hothers cursor' [] .nil hrest') hbefore hrest
    · have hnone : kind = .number → text.any isExponentMark = false →
          exponentLength (blanks (cursor.position + byteLength gap + byteLength text) ++
            insertWithin blanks (cursor.position + byteLength gap + byteLength text) left) = 0 := by
        intro hkind hunmarked
        by_contra hsome
        exact hlonger ⟨hkind, hunmarked, hsome⟩
      obtain ⟨trailing', lead', hlead', hinsert, hlexes'⟩ :=
        hlexes.insertWithin hblank htoken hnone hbefore
      rw [hinsert] at hrest
      rw [scanFrom_of_token (hlexes'.scanStep_eq hrest)]
      refine Respaced.cons rfl ?_ (ih hstray hothers _ lead' hlead' rfl)
      intro mark next after htokens hsevered
      obtain rfl : kind = .number := hsevered.isNumber
      have hunmarked : text.any isExponentMark = false := by
        simpa using hsevered.unmarked
      exact (hiff rfl hunmarked).mpr ⟨mark, next, after, htokens, hsevered⟩ (hnone rfl hunmarked)

/-- Blanks that are put in between the tokens of a text are ignored: the text still falls into
    tokens, these are the same unless a number takes in the symbol after it, and in any case the
    text is parsed as the same circuit, or refused for the same reason. -/
theorem insertBlanks_ignored (text : String) (blanks : Nat → List Char)
    (htokens : (tokenize text).stray = none) (hspacing : Spacing blanks (tokenize text).tokens) :
    (tokenize (String.ofList (insertBlanks blanks text.toList))).stray = none ∧
      ((tokenize (String.ofList (insertBlanks blanks text.toList))).tokens.map Token.lexeme =
          (tokenize text).tokens.map Token.lexeme ↔ ¬ Severs blanks (tokenize text).tokens) ∧
      (parse (String.ofList (insertBlanks blanks text.toList))).mapError ParseError.kindName =
        (parse text).mapError ParseError.kindName := by
  have hrespaced : Respaced blanks .outside (tokenize text)
      (tokenize (String.ofList (insertBlanks blanks text.toList))) :=
    respaced_scanFrom hspacing.blank .outside (.start text.toList) htokens hspacing.between
      (.start (String.ofList (insertBlanks blanks text.toList)).toList) (blanks 0)
      (hspacing.blank 0) (String.toList_ofList)
  refine ⟨hrespaced.stray, hrespaced.lexemes, ?_⟩
  rw [parse_of_stray hrespaced.stray, parse_of_stray htokens]
  exact (parseTokens_of_agree hrespaced.agree).symm

/-- The blanks that pieces put in at their positions make up at a position. -/
def blanksAt (pieces : List (Nat × List Char)) (position : Nat) : List Char :=
  (pieces.filter fun piece => piece.1 == position).flatMap Prod.snd

/-- Whether pieces are put in between tokens can be told from their positions. -/
theorem spacing_blanksAt {pieces : List (Nat × List Char)} {tokens : List Token}
    (hblank : ∀ piece ∈ pieces, piece.2.all isBlank = true)
    (hbetween : ∀ token ∈ tokens, ∀ piece ∈ pieces,
      piece.1 ≤ token.position ∨ token.stop ≤ piece.1) : Spacing (blanksAt pieces) tokens where
  blank := by
    intro position c hc
    obtain ⟨piece, hpiece, hc⟩ := List.mem_flatMap.mp hc
    exact List.all_eq_true.mp (hblank piece (List.mem_of_mem_filter hpiece)) c hc
  between := by
    intro token htoken position hlow hhigh
    have hnone : (pieces.filter fun piece => piece.1 == position) = [] := by
      refine List.filter_eq_nil_iff.mpr fun piece hpiece hposition => ?_
      have := hbetween token htoken piece hpiece
      rw [beq_iff_eq.mp hposition] at this
      omega
    rw [blanksAt, hnone]
    rfl

/-- Blanks around a label. -/
theorem insertBlanks_ignored_label :
    (tokenize "R\x7bR=1:ab\x7dC").stray = none ∧
      Spacing (blanksAt [(6, ['\t']), (8, [' ', '\n'])]) (tokenize "R\x7bR=1:ab\x7dC").tokens ∧
      (parse "R\x7bR=1:\tab \n\x7dC").mapError ParseError.kindName =
        (parse "R\x7bR=1:ab\x7dC").mapError ParseError.kindName := by
  have htokens : (tokenize "R\x7bR=1:ab\x7dC").stray = none := by decide +kernel
  have hspacing : Spacing (blanksAt [(6, ['\t']), (8, [' ', '\n'])])
      (tokenize "R\x7bR=1:ab\x7dC").tokens := by
    refine spacing_blanksAt (by decide +kernel) ?_
    decide +kernel
  have hinsert : String.ofList (insertBlanks (blanksAt [(6, ['\t']), (8, [' ', '\n'])])
      "R\x7bR=1:ab\x7dC".toList) = "R\x7bR=1:\tab \n\x7dC" := by decide +kernel
  have hignored := (insertBlanks_ignored _ _ htokens hspacing).2.2
  rw [hinsert] at hignored
  exact ⟨htokens, hspacing, hignored⟩

/-- The letter after a number becomes part of it when a blank comes between this letter and the
    next one. -/
theorem not_lexemes_insertBlanks :
    (tokenize "1eF").stray = none ∧ Spacing (blanksAt [(2, [' '])]) (tokenize "1eF").tokens ∧
      String.ofList (insertBlanks (blanksAt [(2, [' '])]) "1eF".toList) = "1e F" ∧
      (tokenize "1eF").tokens.map Token.lexeme = [(.number, "1"), (.symbol, "e"), (.symbol, "F")] ∧
      (tokenize "1e F").tokens.map Token.lexeme = [(.number, "1e"), (.symbol, "F")] := by
  refine ⟨by decide +kernel, spacing_blanksAt (by decide +kernel) ?_, by decide +kernel,
    by decide +kernel, by decide +kernel⟩
  decide +kernel

end CircuitCode
