import CircuitCode.Element.Text
import CircuitCode.Proofs.Parsing.Grammar
import CircuitCode.Proofs.Token.Lexeme

/-!
# Scanning the text of an element

Circuit code writes an element as a `Grammar.Leaf`: a limit is given only where it is written
unlike the limit of the kind (`Element.printed`). The text of a leaf is scanned into its lexemes
(`Scans.leaf`), which are those of the grammar unless the mark of a fixed parameter follows an
infinity.
-/

namespace CircuitCode

def Number.isInfinite : Number → Bool
  | infinite _ => true
  | _ => false

namespace Grammar

/-- A number and the mark of a fixed parameter. An infinity and the mark are one word. -/
def flagged (decimals : Nat) (x : Number) (fixed : Bool) : List (TokenKind × String) :=
  match fixed, x with
  | false, x => [(.number, x.code decimals)]
  | true, .infinite true => [(.number, "-infF")]
  | true, .infinite false => [(.identifier, "infF")]
  | true, x => [(.number, x.code decimals), (.identifier, "F")]

namespace Definition

/-- The limits as they are written. -/
def limitsText (decimals : Nat) (d : Definition) : String :=
  match d.lower, d.upper with
  | none, none => ""
  | some lower, none => "/" ++ lower.code decimals
  | none, some upper => "/" ++ "/" ++ upper.code decimals
  | some lower, some upper => "/" ++ lower.code decimals ++ "/" ++ upper.code decimals

def text (decimals : Nat) (d : Definition) : String :=
  d.name ++ "=" ++ d.value.code decimals ++ d.limitsText decimals ++ (if d.fixed then "F" else "")

/-- The number that is written last. -/
def last (d : Definition) : Number := (d.upper.or d.lower).getD d.value

/-- The numbers that are written. -/
def numbers (d : Definition) : List Number := d.value :: (d.lower.toList ++ d.upper.toList)

/-- The tokens of the text, without their places. -/
def lexemes (decimals : Nat) (d : Definition) : List (TokenKind × String) :=
  (.identifier, d.name) :: (.equals, "=") ::
    match d.lower, d.upper with
    | none, none => flagged decimals d.value d.fixed
    | some lower, none =>
      (.number, d.value.code decimals) :: (.slash, "/") :: flagged decimals lower d.fixed
    | none, some upper =>
      (.number, d.value.code decimals) :: (.slash, "/") :: (.slash, "/") ::
        flagged decimals upper d.fixed
    | some lower, some upper =>
      (.number, d.value.code decimals) :: (.slash, "/") :: (.number, lower.code decimals) ::
        (.slash, "/") :: flagged decimals upper d.fixed

end Definition

namespace Leaf

/-- The label and the brace at the end of a parameter block. -/
def closeText (x : Leaf) : String :=
  (match x.label with
    | some label => ":" ++ label
    | none => "") ++ "\x7d"

/-- The text of an element with a parameter block. -/
def text (decimals : Nat) (x : Leaf) : String :=
  x.kind.symbol ++ "\x7b" ++
    String.intercalate "," (x.definitions.map (Definition.text decimals)) ++ x.closeText

def closeLexemes (x : Leaf) : List (TokenKind × String) :=
  match x.label with
  | some label => [(.colon, ":"), (.label, label), (.closeBrace, "\x7d")]
  | none => [(.closeBrace, "\x7d")]

/-- The tokens of definitions with commas between. -/
def definitionLexemes (decimals : Nat) : List Definition → List (TokenKind × String)
  | [] => []
  | [d] => d.lexemes decimals
  | d :: d' :: ds => d.lexemes decimals ++ (.comma, ",") :: definitionLexemes decimals (d' :: ds)

def lexemes (decimals : Nat) (x : Leaf) : List (TokenKind × String) :=
  (.symbol, x.kind.symbol) :: (.openBrace, "\x7b") ::
    (definitionLexemes decimals x.definitions ++ x.closeLexemes)

/-- The names can be scanned, and every number that is given is one. -/
structure Writable (x : Leaf) : Prop where
  name : ∀ d ∈ x.definitions, Lexeme.isName d.name.toList = true
  number : ∀ d ∈ x.definitions, ∀ y ∈ d.numbers, y.isNaN = false
  label : ∀ text, x.label = some text → text ≠ "" ∧ Element.isLabel text = true

end Leaf

end Grammar

open Grammar

/-- A parameter as circuit code gives it. -/
def Parameter.printed (decimals : Nat) (p : Parameter) (definition : ParameterDefinition) :
    Definition :=
  ⟨p.name, p.value,
    if p.lower.code decimals = definition.lower.code decimals then none else some p.lower,
    if p.upper.code decimals = definition.upper.code decimals then none else some p.upper, p.fixed⟩

namespace Element

/-- The parameters of an element with what the kind says of them. -/
def entries (e : Element) : List (Parameter × ParameterDefinition) :=
  e.parameters.zip e.kind.parameters

/-- An element as circuit code gives it. -/
def printed (decimals : Nat) (e : Element) : Leaf :=
  ⟨e.kind, e.entries.map fun entry => entry.1.printed decimals entry.2, e.label⟩

end Element

theorem Parameter.text_printed (decimals : Nat) (p : Parameter) (definition : ParameterDefinition) :
    (p.printed decimals definition).text decimals = p.text definition decimals := by
  unfold printed Definition.text Definition.limitsText text CircuitCode.limitsText
  dsimp only
  by_cases hlower : p.lower.code decimals = definition.lower.code decimals <;>
    by_cases hupper : p.upper.code decimals = definition.upper.code decimals <;>
      simp [hlower, hupper, String.append_assoc, -String.reduceAppend]

theorem Element.definitionTexts_eq (e : Element) (decimals : Nat) :
    e.definitionTexts decimals = e.entries.map fun entry => entry.1.text entry.2 decimals := by
  rw [definitionTexts, entries, ← List.map_uncurry_zip_eq_zipWith]
  rfl

theorem Element.text_printed (decimals : Nat) (e : Element) :
    (e.printed decimals).text decimals = e.text (some decimals) := by
  unfold printed Leaf.text Leaf.closeText text blockText
  dsimp only
  rw [definitionTexts_eq, List.map_map]
  simp only [Function.comp_def, Parameter.text_printed]
  cases e.label <;> simp [String.append_assoc, symbol]

namespace Scans

variable {decimals : Nat} {rest : List Char}

/-- The text of a finite number is a token where no digit follows. -/
theorem finite {negative : Bool} {units : Nat} {h : Representable units}
    (hrest : rest.head?.any Char.isDigit = false) :
    Scans .block (((Number.finite negative units h).code decimals).toList) rest
      [(.number, (Number.finite negative units h).code decimals)] .block := by
  have hd := Digits.wellFormed_rounded units decimals
  have hnext := Lexeme.next?_scientific (negative && units != 0) hd hrest
  obtain ⟨c, more, htext, hc⟩ := Digits.scientific_eq_cons hd Number.codeExponentStyle
  rw [Number.code_finite, String.toList_ofList]
  rw [htext] at hnext ⊢
  refine of_next? (by decide) (by simp) ?_ hnext
  cases negative && units != 0 with
  | true => rfl
  | false => exact isBlank_of_isDigit hc

/-- The text of a number is a token where nothing that could be part of a name follows. -/
theorem number {x : Number} (hx : x.isNaN = false)
    (hrest : rest.head?.any Lexeme.isIdentifierChar = false) :
    Scans .block (x.code decimals).toList rest [(.number, x.code decimals)] .block := by
  cases x with
  | nan negative => cases hx
  | infinite negative =>
    rw [Number.code_infinite]
    cases negative with
    | true => exact of_next? (by decide) (by decide) rfl (Lexeme.next?_negative rfl rfl hrest)
    | false => exact of_next? (by decide) (by decide) rfl (Lexeme.next?_inf hrest)
  | finite negative units h =>
    refine finite ?_
    cases rest with
    | nil => rfl
    | cons c more =>
      simp only [List.head?_cons, Option.any_some, Lexeme.isIdentifierChar, Char.isAlphanum,
        Bool.or_eq_false_iff] at hrest ⊢
      exact hrest.1.2

/-- A number with the mark of a fixed parameter, or without. -/
theorem flagged {x : Number} (hx : x.isNaN = false) (fixed : Bool)
    (hrest : rest.head?.any Lexeme.isIdentifierChar = false) :
    Scans .block ((x.code decimals).toList ++ (if fixed then "F" else "").toList) rest
      (Grammar.flagged decimals x fixed) .block := by
  cases fixed with
  | false =>
    rw [if_neg (by decide), String.toList_empty, List.append_nil]
    exact number hx hrest
  | true =>
    rw [if_pos rfl]
    cases x with
    | nan negative => cases hx
    | infinite negative =>
      rw [Number.code_infinite]
      cases negative with
      | true => exact of_next? (by decide) (by decide) rfl (Lexeme.next?_negative rfl rfl hrest)
      | false => exact of_next? (by decide) (by decide) rfl (Lexeme.next?_name rfl hrest)
    | finite negative units h =>
      have hflag : Scans .block "F".toList rest [(.identifier, "F")] .block := name rfl hrest
      exact append (finite rfl) hflag

theorem slash : Scans .block "/".toList rest [(.slash, "/")] .block :=
  mark (by decide) rfl

/-- A value before its limits, or a lower limit before an upper one. -/
theorem number_slash {x : Number} (hx : x.isNaN = false) :
    Scans .block (x.code decimals).toList ("/".toList ++ rest) [(.number, x.code decimals)]
      .block :=
  number hx rfl

theorem definition {d : Definition} (hname : Lexeme.isName d.name.toList = true)
    (hnumber : ∀ y ∈ d.numbers, y.isNaN = false)
    (hrest : rest.head?.any Lexeme.isIdentifierChar = false) :
    Scans .block (d.text decimals).toList rest (d.lexemes decimals) .block := by
  obtain ⟨name, value, lower, upper, fixed⟩ := d
  have hvalue : value.isNaN = false := hnumber value List.mem_cons_self
  have hequals : ∀ tail, Scans .block "=".toList tail [(.equals, "=")] .block :=
    fun tail => mark (by decide) rfl
  unfold Definition.text Definition.lexemes Definition.limitsText
  simp only [String.toList_append, List.append_assoc]
  refine cons (Scans.name hname rfl) (cons (hequals _) ?_)
  cases lower with
  | none =>
    cases upper with
    | none => exact flagged hvalue fixed hrest
    | some upper =>
      have hupper : upper.isNaN = false := hnumber upper (by simp [Definition.numbers])
      simp only [String.toList_append, List.append_assoc]
      exact cons (number_slash hvalue) (cons slash (cons slash (flagged hupper fixed hrest)))
  | some lower =>
    have hlower : lower.isNaN = false := hnumber lower (by simp [Definition.numbers])
    cases upper with
    | none =>
      simp only [String.toList_append, List.append_assoc]
      exact cons (number_slash hvalue) (cons slash (flagged hlower fixed hrest))
    | some upper =>
      have hupper : upper.isNaN = false := hnumber upper (by simp [Definition.numbers])
      simp only [String.toList_append, List.append_assoc]
      exact cons (number_slash hvalue) (cons slash (cons (number_slash hlower)
        (cons slash (flagged hupper fixed hrest))))

theorem definitions {ds : List Definition} (hname : ∀ d ∈ ds, Lexeme.isName d.name.toList = true)
    (hnumber : ∀ d ∈ ds, ∀ y ∈ d.numbers, y.isNaN = false)
    (hrest : rest.head?.any Lexeme.isIdentifierChar = false) :
    Scans .block (String.intercalate "," (ds.map (Definition.text decimals))).toList rest
      (Leaf.definitionLexemes decimals ds) .block := by
  induction ds with
  | nil => exact nil
  | cons d ds ih =>
    rw [List.forall_mem_cons] at hname hnumber
    cases ds with
    | nil => exact definition hname.1 hnumber.1 hrest
    | cons d' ds =>
      have hcomma : ∀ tail, Scans .block ",".toList tail [(.comma, ",")] .block :=
        fun tail => mark (by decide) rfl
      rw [List.map_cons, List.map_cons, String.intercalate_cons_cons, ← List.map_cons]
      simp only [String.toList_append, List.append_assoc]
      exact append (definition hname.1 hnumber.1 rfl) (cons (hcomma _) (ih hname.2 hnumber.2))

theorem close {x : Leaf} (hlabel : ∀ text, x.label = some text → text ≠ "" ∧ Element.isLabel text) :
    Scans .block x.closeText.toList rest x.closeLexemes .outside := by
  unfold Leaf.closeText Leaf.closeLexemes
  cases htext : x.label with
  | none => exact mark (by decide) rfl
  | some text =>
    obtain ⟨hne, hok⟩ := hlabel text htext
    have hcolon : ∀ tail, Scans .block ":".toList tail [(.colon, ":")] .label :=
      fun tail => mark (by decide) rfl
    have hbrace : Scans .block "\x7d".toList rest [(.closeBrace, "\x7d")] .outside :=
      mark (by decide) rfl
    simp only [Element.isLabel, Bool.and_eq_true, Bool.not_eq_true', List.any_eq_false,
      Bool.or_eq_true, beq_iff_eq, not_or] at hok
    have hscan : Scans .label text.toList ("\x7d".toList ++ rest) [(.label, text)] .block := by
      have hplain : '\x7d' ∉ text.toList := fun hmem => (hok.1 _ hmem).2 rfl
      have hscan :
          Scans .label text.toList ('\x7d' :: rest) [(.label, .ofList text.toList)] .block :=
        label (by simpa using hne) hplain hok.2
      rwa [String.ofList_toList] at hscan
    simp only [String.toList_append, List.append_assoc]
    exact cons (hcolon _) (cons hscan hbrace)

/-- The text of an element is scanned into its lexemes wherever it stands. -/
theorem leaf {x : Leaf} (hx : x.Writable) :
    Scans .outside (x.text decimals).toList rest (x.lexemes decimals) .outside := by
  have hopen : ∀ tail, Scans .outside "\x7b".toList tail [(.openBrace, "\x7b")] .block :=
    fun tail => mark (by decide) rfl
  have hclose : (x.closeText.toList ++ rest).head?.any Lexeme.isIdentifierChar = false := by
    unfold Leaf.closeText
    cases x.label with
    | none => rfl
    | some label =>
      simp only [String.toList_append, List.append_assoc]
      rfl
  unfold Leaf.text Leaf.lexemes
  simp only [String.toList_append, List.append_assoc]
  exact cons (symbol x.kind rfl) (cons (hopen _)
    (append (definitions hx.name hx.number hclose) (close hx.label)))

end Scans

end CircuitCode
