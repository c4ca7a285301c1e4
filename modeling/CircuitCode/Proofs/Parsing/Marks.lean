import CircuitCode.Proofs.Circuit.Printed
import CircuitCode.Proofs.Token.Position

/-!
# The marks of a bare text

A bare text is a list of marks: symbols of elements and brackets (`Mark`). Its tokens make up one
item for each mark, and the position of a bracket is the length of the text before it
(`ofTokens_marks`). The marks of a tree are those of its nodes, between brackets for each
connection (`Node.marks`).
-/

namespace CircuitCode

open Grammar

/-- A new element of a kind, or a bracket. -/
inductive Mark where
  | element (kind : ElementKind)
  | opening (kind : ConnectionKind)
  | closing (kind : ConnectionKind)

namespace Mark

def text : Mark → String
  | element kind => kind.symbol
  | opening kind => kind.brackets.1
  | closing kind => kind.brackets.2

/-- The token of a mark, without its place. -/
def lexeme : Mark → TokenKind × String
  | element kind => (.symbol, kind.symbol)
  | opening kind => ((bracketKinds kind).1, kind.brackets.1)
  | closing kind => ((bracketKinds kind).2, kind.brackets.2)

/-- The item of a mark at a position. -/
def item (position : Nat) : Mark → Item
  | element kind => .element (.ofKind kind)
  | opening kind => .opening kind position
  | closing kind => .closing kind position

/-- The text of some marks. -/
def chars (marks : List Mark) : List Char := marks.flatMap fun mark => mark.text.toList

/-- The items of marks one after the other, the first of them at the given position. -/
def items : Nat → List Mark → List Item
  | _, [] => []
  | position, mark :: marks =>
    mark.item position :: items (position + byteLength mark.text.toList) marks

theorem lexeme_snd (mark : Mark) : mark.lexeme.2 = mark.text := by
  cases mark <;> rfl

/-- No mark starts with a lower case letter, so none continues the symbol before it. -/
theorem head?_chars (marks : List Mark) : (chars marks).head?.any Char.isLower = false := by
  cases marks with
  | nil => rfl
  | cons mark marks =>
    cases mark with
    | element kind => cases kind <;> rfl
    | opening kind => cases kind <;> rfl
    | closing kind => cases kind <;> rfl

theorem blankFree_chars (marks : List Mark) : BlankFree (chars marks) := by
  have hmark (mark : Mark) : (mark.text.toList.all fun c => !isBlank c) = true := by
    cases mark with
    | element kind => cases kind <;> decide
    | opening kind => cases kind <;> decide
    | closing kind => cases kind <;> decide
  intro c hc
  obtain ⟨mark, -, hc⟩ := List.mem_flatMap.mp hc
  simpa using List.all_eq_true.mp (hmark mark) c hc

theorem scans_chars (marks : List Mark) :
    Scans .outside (chars marks) [] (marks.map lexeme) .outside := by
  induction marks with
  | nil => exact Scans.nil
  | cons mark marks ih =>
    show Scans .outside (mark.text.toList ++ chars marks) [] (mark.lexeme :: marks.map lexeme)
      .outside
    refine Scans.cons ?_ ih
    rw [List.append_nil]
    cases mark with
    | element kind => exact Scans.symbol kind (head?_chars marks)
    | opening kind => exact Scans.opening
    | closing kind => exact Scans.closing

end Mark

open Mark

theorem items_append (position : Nat) (marks marks' : List Mark) :
    items position (marks ++ marks') =
      items position marks ++ items (position + byteLength (chars marks)) marks' := by
  induction marks generalizing position with
  | nil => rfl
  | cons mark marks ih =>
    have hlength : byteLength (chars (mark :: marks)) =
        byteLength mark.text.toList + byteLength (chars marks) := byteLength_append _ _
    rw [List.cons_append, items, items, ih, hlength, Nat.add_assoc]
    rfl

/-- No parameter block starts among marks. -/
theorem head?_any_isOpenBrace {marks : List Mark} {tokens : List Token}
    (h : tokens.map Token.lexeme = marks.map lexeme) :
    tokens.head?.any TokenReader.isOpenBrace = false := by
  cases tokens with
  | nil => rfl
  | cons token tokens =>
    obtain ⟨mark, marks, rfl, hmark, -⟩ := List.map_eq_cons_iff.mp h.symm
    have hkind : token.kind = mark.lexeme.1 := congrArg Prod.fst hmark.symm
    cases mark with
    | element kind => simp [TokenReader.isOpenBrace, hkind, lexeme]
    | opening kind =>
      simp [TokenReader.isOpenBrace, hkind, lexeme, bracketKinds_fst_ne_openBrace]
    | closing kind =>
      simp [TokenReader.isOpenBrace, hkind, lexeme, bracketKinds_snd_ne_openBrace]

/-- The tokens of marks, one right after the other, make up the items of the marks. -/
theorem ofTokens_marks (stop : Nat) {marks : List Mark} {tokens : List Token} {position : Nat}
    (hlexemes : tokens.map Token.lexeme = marks.map lexeme)
    (hplaces : Consecutive position tokens) (hlabels : LabelsTrimmed tokens) :
    Items.ofTokens stop tokens = ⟨items position marks, none⟩ := by
  induction marks generalizing tokens position with
  | nil =>
    obtain rfl := List.map_eq_nil_iff.mp hlexemes
    rw [Items.ofTokens]
    rfl
  | cons mark marks ih =>
    obtain ⟨token, tokens, rfl, hlexeme, hothers⟩ := List.map_eq_cons_iff.mp hlexemes
    obtain ⟨hposition, hplaces⟩ := hplaces
    have htext : token.text = mark.text := (congrArg Prod.snd hlexeme).trans mark.lexeme_snd
    rw [htext] at hplaces
    have hrest := ih hothers hplaces (hlabels.of_suffix (List.suffix_cons _ _))
    have hcons (item : Item) (hitem : mark.item position = item) :
        Items.cons item (Items.ofTokens stop tokens) = ⟨items position (mark :: marks), none⟩ := by
      rw [hrest, ← hitem]
      rfl
    cases mark with
    | element kind =>
      have hkind : ElementKind.ofSymbol? token.text = some kind := by
        rw [htext]
        exact kind.ofSymbol?_symbol
      have hvalid : (⟨kind, [], none⟩ : Leaf).Valid := by
        constructor <;> simp
      have hrun : (TokenReader.element stop token).run tokens = .ok (.ofKind kind, tokens) :=
        TokenReader.run_element_of_derives hkind .absent hvalid
          (hlabels.of_suffix (List.suffix_cons _ _)) (head?_any_isOpenBrace hothers)
      rw [Items.ofTokens_symbol (congrArg Prod.fst hlexeme) hrun]
      exact hcons _ rfl
    | opening kind =>
      rw [Items.ofTokens_opening (congrArg Prod.fst hlexeme), hposition]
      exact hcons _ rfl
    | closing kind =>
      rw [Items.ofTokens_closing (congrArg Prod.fst hlexeme), hposition]
      exact hcons _ rfl

/-- A text of marks has the items of the marks, and nothing else. -/
theorem ofTokens_tokenize {text : String} {marks : List Mark} (h : text.toList = chars marks)
    (stop : Nat) :
    (tokenize text).stray = none ∧
      Items.ofTokens stop (tokenize text).tokens = ⟨items 0 marks, none⟩ := by
  have hscans := scans_chars marks
  have hfree := blankFree_chars marks
  rw [← h] at hscans hfree
  obtain ⟨hstray, hlexemes⟩ := hscans.tokenize_eq
  exact ⟨hstray, ofTokens_marks stop hlexemes (consecutive_tokenize hfree)
    (labelsTrimmed_tokenize text)⟩

namespace Node

/-- The marks of a tree, from left to right. -/
def marks : Node ElementKind → List Mark :=
  fold (fun kind => [.element kind]) fun kind children =>
    .opening kind :: (children.flatten ++ [.closing kind])

theorem marks_branch (kind : ConnectionKind) (children : List (Node ElementKind)) :
    (branch kind children).marks =
      .opening kind :: (children.flatMap marks ++ [.closing kind]) := by
  rw [marks, fold_branch, ← marks, List.flatMap_def]

/-- The text of the marks of a tree is the bare text of the tree of new elements. -/
theorem toList_text_map_ofKind (node : Node ElementKind) :
    ((node.map Element.ofKind).text none).toList = chars node.marks := by
  induction node using Node.induction with
  | leaf kind => exact (List.append_nil _).symm
  | branch kind children ih =>
    have hchildren : ((children.map (Node.map Element.ofKind)).flatMap fun child =>
        (child.text none).toList) = chars (children.flatMap marks) := by
      rw [List.flatMap_map, chars, List.flatMap_assoc]
      exact List.flatMap_congr ih
    rw [map_branch, text, toList_fold_branch, marks_branch]
    show _ ++ ((children.map (Node.map Element.ofKind)).flatMap fun child =>
      (child.text none).toList) ++ _ = _
    rw [hchildren]
    simp [chars, Mark.text]

end Node

end CircuitCode
