import CircuitCode.Expr.Basic
import CircuitCode.Proofs.Number.Shortest
import CircuitCode.Proofs.Token.Lexeme

/-!
# The notation of expressions

What the texts of expressions are made of:

* a word is a finite number, `j` or a name;
* an operand is a word, or a line in parentheses that may stand after the name of a function;
* a term is an operand, two operands or more with `*` or `^` between, or an operand after `1/`;
* a line is one term or more with ` + ` between.

No text is written in two ways (`Notation.Line.text_inj`).
-/

namespace CircuitCode

open Lexeme

/-- A name that can be told from the numbers and from the imaginary unit. -/
structure Expr.IsName (name : String) : Prop where
  head : name.toList.head?.any isIdentifierStart = true
  chars : name.toList.all isIdentifierChar = true
  ne_imaginary : name ≠ "j"

namespace Notation

inductive Word where
  | number (x : Number) (hx : x.isFinite = true)
  | imaginary
  | symbol (name : String) (hname : Expr.IsName name)

inductive Function where
  | tanh
  | coth

inductive Operator where
  | times
  | raised

mutual

inductive Operand where
  | word (w : Word)
  | enclosed (function : Option Function) (line : Line)

inductive Term where
  | last (operand : Operand)
  | cons (operand : Operand) (operator : Operator) (term : Term)
  | inverse (operand : Operand)

inductive Line where
  | last (term : Term)
  | cons (term : Term) (line : Line)

end

def Word.text : Word → List Char
  | number x _ => x.plain.toList
  | imaginary => ['j']
  | symbol name _ => name.toList

/-- The name of a function, or nothing where parentheses stand without one. -/
def functionText : Option Function → List Char
  | none => []
  | some .tanh => ['t', 'a', 'n', 'h']
  | some .coth => ['c', 'o', 't', 'h']

def Operator.char : Operator → Char
  | times => '*'
  | raised => '^'

mutual

def Operand.text : Operand → List Char
  | .word w => w.text
  | .enclosed function line => functionText function ++ '(' :: (line.text ++ [')'])

def Term.text : Term → List Char
  | .last operand => operand.text
  | .cons operand operator term => operand.text ++ operator.char :: term.text
  | .inverse operand => '1' :: '/' :: operand.text

def Line.text : Line → List Char
  | .last term => term.text
  | .cons term line => term.text ++ ' ' :: '+' :: ' ' :: line.text

end

/-- The characters of words. -/
def isWordChar (c : Char) : Bool := isIdentifierChar c || c == '.' || c == '-'

theorem isWordChar_of_isDigit {c : Char} (h : c.isDigit = true) : isWordChar c = true := by
  simp [isWordChar, isIdentifierChar, Char.isAlphanum, h]

theorem Word.isWordChar_text (w : Word) : ∀ c ∈ w.text, isWordChar c = true := by
  intro c hc
  cases w with
  | imaginary =>
    obtain rfl := List.mem_singleton.mp hc
    rfl
  | symbol name hname => simp [isWordChar, List.all_eq_true.mp hname.chars c hc]
  | number x hx =>
    obtain ⟨sign, first, rest, htext, hsign, hfirst, hrest⟩ := Number.plain_of_isFinite hx
    rw [Word.text, htext, List.mem_append, List.mem_cons] at hc
    obtain hc | rfl | hc := hc
    · obtain rfl | rfl := hsign
      · cases hc
      · obtain rfl := List.mem_singleton.mp hc
        rfl
    · exact isWordChar_of_isDigit hfirst
    · obtain hdigit | rfl := hrest c hc
      · exact isWordChar_of_isDigit hdigit
      · rfl

/-- A number does not start like a name. -/
theorem head?_plain {x : Number} (hx : x.isFinite = true) :
    x.plain.toList.head?.any isIdentifierStart = false := by
  obtain ⟨sign, first, rest, htext, rfl | rfl, hfirst, -⟩ := Number.plain_of_isFinite hx
  · rw [htext]
    exact not_isIdentifierStart_of_isDigit hfirst
  · rw [htext]
    rfl

theorem Word.text_inj {w w' : Word} (h : w.text = w'.text) : w = w' := by
  have hne {w w' : Word} (hw : w.text.head?.any isIdentifierStart = true)
      (hw' : w'.text.head?.any isIdentifierStart = false) : w.text ≠ w'.text := by
    intro h
    rw [h, hw'] at hw
    cases hw
  cases w with
  | number x hx =>
    cases w' with
    | number x' hx' =>
      have hplain := Number.plain_injOn (Number.isNaN_of_isFinite hx)
        (Number.isNaN_of_isFinite hx') (String.toList_injective h)
      subst hplain
      rfl
    | imaginary => exact absurd h.symm (hne rfl (head?_plain hx))
    | symbol name hname => exact absurd h.symm (hne hname.head (head?_plain hx))
  | imaginary =>
    cases w' with
    | number x hx => exact absurd h (hne rfl (head?_plain hx))
    | imaginary => rfl
    | symbol name hname =>
      have htext : "j".toList = name.toList := h
      exact absurd (String.toList_injective htext).symm hname.ne_imaginary
  | symbol name hname =>
    cases w' with
    | number x hx => exact absurd h (hne hname.head (head?_plain hx))
    | imaginary =>
      have htext : name.toList = "j".toList := h
      exact absurd (String.toList_injective htext) hname.ne_imaginary
    | symbol name' hname' =>
      obtain rfl : name = name' := String.toList_injective h
      rfl

theorem isWordChar_functionText (function : Option Function) :
    ∀ c ∈ functionText function, isWordChar c = true := by
  obtain _ | _ | _ := function <;> exact List.all_eq_true.mp rfl

theorem functionText_inj {function function' : Option Function}
    (h : functionText function = functionText function') : function = function' := by
  obtain _ | _ | _ := function <;> obtain _ | _ | _ := function' <;> first | rfl | cases h

/-- What may follow an operand. -/
def EndsOperand (rest : List Char) : Prop :=
  rest.head?.any (fun c => isWordChar c || c == '(') = false

/-- What may follow a term. -/
def EndsTerm (rest : List Char) : Prop := rest.head?.all (fun c => c == ' ' || c == ')') = true

/-- What may follow a line. -/
def EndsLine (rest : List Char) : Prop := rest.head?.all (· == ')') = true

theorem EndsTerm.endsOperand {rest : List Char} (h : EndsTerm rest) : EndsOperand rest := by
  cases rest with
  | nil => rfl
  | cons c rest =>
    obtain rfl | rfl : c = ' ' ∨ c = ')' := by simpa [EndsTerm] using h
    · rfl
    · rfl

theorem EndsLine.endsTerm {rest : List Char} (h : EndsLine rest) : EndsTerm rest := by
  cases rest with
  | nil => rfl
  | cons c rest =>
    obtain rfl : c = ')' := by simpa [EndsLine] using h
    rfl

theorem EndsOperand.not_isWordChar {rest : List Char} (h : EndsOperand rest) :
    rest.head?.any isWordChar = false := by
  cases rest with
  | nil => rfl
  | cons c rest => exact (Bool.or_eq_false_iff.mp h).1

theorem Operator.endsOperand (operator : Operator) (rest : List Char) :
    EndsOperand (operator.char :: rest) := by
  cases operator <;> rfl

theorem endsOperand_slash (rest : List Char) : EndsOperand ('/' :: rest) := rfl

theorem not_endsTerm_slash (rest : List Char) : ¬ EndsTerm ('/' :: rest) := nofun

theorem endsTerm_blank (rest : List Char) : EndsTerm (' ' :: rest) := rfl

theorem not_endsLine_blank (rest : List Char) : ¬ EndsLine (' ' :: rest) := nofun

theorem endsLine_nil : EndsLine [] := rfl

theorem endsLine_close (rest : List Char) : EndsLine (')' :: rest) := rfl

theorem Operator.not_endsTerm (operator : Operator) (rest : List Char) :
    ¬ EndsTerm (operator.char :: rest) := by
  cases operator <;> exact nofun

theorem Operator.char_inj {operator operator' : Operator} (h : operator.char = operator'.char) :
    operator = operator' := by
  cases operator <;> cases operator' <;> first | rfl | cases h

theorem Operator.char_ne_slash (operator : Operator) : operator.char ≠ '/' := by
  cases operator <;> decide

/-- The number before the slash of a reciprocal. -/
def one : Word := .number 1 (by decide +kernel)

theorem text_one : one.text = ['1'] := by decide +kernel

theorem Operand.text_enclosed_append (function : Option Function) (line : Line)
    (rest : List Char) : (Operand.enclosed function line).text ++ rest =
      functionText function ++ '(' :: (line.text ++ ')' :: rest) := by
  simp [Operand.text]

theorem Term.text_cons_append (operand : Operand) (operator : Operator) (term : Term)
    (rest : List Char) : (Term.cons operand operator term).text ++ rest =
      operand.text ++ operator.char :: (term.text ++ rest) := by
  simp [Term.text]

theorem Term.text_inverse_append (operand : Operand) (rest : List Char) :
    (Term.inverse operand).text ++ rest = one.text ++ '/' :: (operand.text ++ rest) := by
  rw [text_one]
  rfl

theorem Line.text_cons_append (term : Term) (line : Line) (rest : List Char) :
    (Line.cons term line).text ++ rest =
      term.text ++ ' ' :: '+' :: ' ' :: (line.text ++ rest) := by
  simp [Line.text]

theorem not_isWordChar_open (rest : List Char) : ('(' :: rest).head?.any isWordChar = false := rfl

/-- A word is known whatever follows that does not go on with it. -/
theorem Word.text_append_inj {w : Word} {operand : Operand} {rest rest' : List Char}
    (hrest : EndsOperand rest) (hrest' : EndsOperand rest')
    (h : w.text ++ rest = operand.text ++ rest') : Operand.word w = operand ∧ rest = rest' := by
  cases operand with
  | word w' =>
    obtain ⟨htext, hmore⟩ := append_inj_of_head? w.isWordChar_text w'.isWordChar_text
      hrest.not_isWordChar hrest'.not_isWordChar h
    exact ⟨congrArg Operand.word (Word.text_inj htext), hmore⟩
  | enclosed function line =>
    rw [Operand.text_enclosed_append] at h
    obtain ⟨-, rfl⟩ := append_inj_of_head? w.isWordChar_text (isWordChar_functionText function)
      hrest.not_isWordChar (not_isWordChar_open _) h
    cases hrest

-- The recursion is on what is written on the left.
mutual

/-- An operand is known whatever follows that does not go on with it. -/
theorem Operand.text_append_inj {operand operand' : Operand} {rest rest' : List Char}
    (hrest : EndsOperand rest) (hrest' : EndsOperand rest')
    (h : operand.text ++ rest = operand'.text ++ rest') : operand = operand' ∧ rest = rest' := by
  cases operand with
  | word w => exact Word.text_append_inj hrest hrest' h
  | enclosed function line =>
    cases operand' with
    | word w' =>
      obtain ⟨hoperand, hmore⟩ := Word.text_append_inj hrest' hrest h.symm
      exact ⟨hoperand.symm, hmore.symm⟩
    | enclosed function' line' =>
      rw [Operand.text_enclosed_append, Operand.text_enclosed_append] at h
      obtain ⟨hfunction, hline⟩ := append_inj_of_head? (isWordChar_functionText function)
        (isWordChar_functionText function') (not_isWordChar_open _) (not_isWordChar_open _) h
      obtain ⟨rfl, hclose⟩ := Line.text_append_inj (endsLine_close _) (endsLine_close _)
        (List.cons.inj hline).2
      exact ⟨by rw [functionText_inj hfunction], (List.cons.inj hclose).2⟩

theorem Term.text_append_inj {term term' : Term} {rest rest' : List Char}
    (hrest : EndsTerm rest) (hrest' : EndsTerm rest')
    (h : term.text ++ rest = term'.text ++ rest') : term = term' ∧ rest = rest' := by
  cases term with
  | last operand =>
    cases term' with
    | last operand' =>
      obtain ⟨rfl, hmore⟩ := Operand.text_append_inj hrest.endsOperand hrest'.endsOperand h
      exact ⟨rfl, hmore⟩
    | cons operand' operator' term' =>
      rw [Term.text_cons_append] at h
      obtain ⟨-, rfl⟩ := Operand.text_append_inj hrest.endsOperand (operator'.endsOperand _) h
      exact absurd hrest (operator'.not_endsTerm _)
    | inverse operand' =>
      rw [Term.text_inverse_append] at h
      obtain ⟨-, rfl⟩ := Word.text_append_inj (endsOperand_slash _) hrest.endsOperand h.symm
      exact absurd hrest (not_endsTerm_slash _)
  | cons operand operator term =>
    rw [Term.text_cons_append] at h
    cases term' with
    | last operand' =>
      obtain ⟨-, rfl⟩ := Operand.text_append_inj (operator.endsOperand _) hrest'.endsOperand h
      exact absurd hrest' (operator.not_endsTerm _)
    | cons operand' operator' term' =>
      rw [Term.text_cons_append] at h
      obtain ⟨rfl, htail⟩ :=
        Operand.text_append_inj (operator.endsOperand _) (operator'.endsOperand _) h
      obtain ⟨hchar, hterm⟩ := List.cons.inj htail
      obtain ⟨rfl, hmore⟩ := Term.text_append_inj hrest hrest' hterm
      exact ⟨by rw [Operator.char_inj hchar], hmore⟩
    | inverse operand' =>
      rw [Term.text_inverse_append] at h
      obtain ⟨-, htail⟩ :=
        Word.text_append_inj (endsOperand_slash _) (operator.endsOperand _) h.symm
      exact absurd (List.cons.inj htail).1.symm operator.char_ne_slash
  | inverse operand =>
    rw [Term.text_inverse_append] at h
    cases term' with
    | last operand' =>
      obtain ⟨-, rfl⟩ := Word.text_append_inj (endsOperand_slash _) hrest'.endsOperand h
      exact absurd hrest' (not_endsTerm_slash _)
    | cons operand' operator' term' =>
      rw [Term.text_cons_append] at h
      obtain ⟨-, htail⟩ := Word.text_append_inj (endsOperand_slash _) (operator'.endsOperand _) h
      exact absurd (List.cons.inj htail).1.symm operator'.char_ne_slash
    | inverse operand' =>
      rw [Term.text_inverse_append] at h
      have htail := (List.cons.inj (List.append_cancel_left h)).2
      obtain ⟨rfl, hmore⟩ := Operand.text_append_inj hrest.endsOperand hrest'.endsOperand htail
      exact ⟨rfl, hmore⟩

theorem Line.text_append_inj {line line' : Line} {rest rest' : List Char}
    (hrest : EndsLine rest) (hrest' : EndsLine rest')
    (h : line.text ++ rest = line'.text ++ rest') : line = line' ∧ rest = rest' := by
  cases line with
  | last term =>
    cases line' with
    | last term' =>
      obtain ⟨rfl, hmore⟩ := Term.text_append_inj hrest.endsTerm hrest'.endsTerm h
      exact ⟨rfl, hmore⟩
    | cons term' line' =>
      rw [Line.text_cons_append] at h
      obtain ⟨-, rfl⟩ := Term.text_append_inj hrest.endsTerm (endsTerm_blank _) h
      exact absurd hrest (not_endsLine_blank _)
  | cons term line =>
    rw [Line.text_cons_append] at h
    cases line' with
    | last term' =>
      obtain ⟨-, rfl⟩ := Term.text_append_inj (endsTerm_blank _) hrest'.endsTerm h
      exact absurd hrest' (not_endsLine_blank _)
    | cons term' line' =>
      rw [Line.text_cons_append] at h
      obtain ⟨rfl, htail⟩ := Term.text_append_inj (endsTerm_blank _) (endsTerm_blank _) h
      obtain ⟨rfl, hmore⟩ := Line.text_append_inj hrest hrest' (by simpa using htail)
      exact ⟨rfl, hmore⟩

end

/-- No text is written in two ways. -/
theorem Line.text_inj {line line' : Line} (h : line.text = line'.text) : line = line' := by
  have happend : line.text ++ [] = line'.text ++ [] := by rw [h]
  exact (Line.text_append_inj endsLine_nil endsLine_nil happend).1

end Notation

end CircuitCode
