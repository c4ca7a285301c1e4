import CircuitCode.Expr.Text
import CircuitCode.Proofs.Complex.Standard
import CircuitCode.Proofs.Expr.Bindings
import CircuitCode.Proofs.Expr.Notation
import CircuitCode.Proofs.Expr.Value

/-!
# Texts of expressions are unambiguous

Not everything about an expression is in its text: there is no trace of a sum within a sum, or of a
sum or a product of one operand. A line has what is left (`Notation.Line`), and read as an
expression again it has the same free symbols and the same values (`Expr.Printable.written`). So
expressions of the same text agree in both (`Expr.evaluate_eq_of_text_eq`).
-/

namespace CircuitCode

namespace Notation

def Word.expr : Word → Expr
  | number x _ => .number x
  | imaginary => .imaginary
  | symbol name _ => .symbol name

/-- Parentheses without the name of a function stand for nothing. -/
def apply : Option Function → Expr → Expr
  | none, e => e
  | some .tanh, e => .tanh e
  | some .coth, e => .coth e

def Operator.apply : Operator → Expr → Expr → Expr
  | times, left, right => .product [left, right]
  | raised, left, right => .power left right

mutual

/-- The expression that an operand is read as. -/
def Operand.expr : Operand → Expr
  | .word w => w.expr
  | .enclosed function line => apply function line.expr

/-- The expression that a term is read as, from right to left. -/
def Term.expr : Term → Expr
  | .last operand => operand.expr
  | .cons operand operator term => operator.apply operand.expr term.expr
  | .inverse operand => operand.expr.recip

/-- The expression that a line is read as. -/
def Line.expr : Line → Expr
  | .last term => term.expr
  | .cons term line => .sum [term.expr, line.expr]

end

/-- One line after another, as terms of one sum. -/
def Line.append : Line → Line → Line
  | .last term, line' => .cons term line'
  | .cons term line, line' => .cons term (line.append line')

theorem Line.text_append (line line' : Line) :
    (line.append line').text = line.text ++ ' ' :: '+' :: ' ' :: line'.text := by
  cases line with
  | last term => rfl
  | cons term line => simp [Line.append, Line.text, line.text_append line']

end Notation

namespace Expr

open ComplexArithmetic ExactArithmetic Notation

/-- What has a text that can be read: there is an operand in every sum and product, every number is
    finite, and every symbol has a name. -/
inductive Printable : Expr → Prop where
  | number {x : Number} (hx : x.isFinite = true) : Printable (.number x)
  | imaginary : Printable .imaginary
  | symbol {name : String} (hname : IsName name) : Printable (.symbol name)
  | sum {ts : List Expr} (hne : ts ≠ []) (h : ∀ t ∈ ts, Printable t) : Printable (.sum ts)
  | product {fs : List Expr} (hne : fs ≠ []) (h : ∀ f ∈ fs, Printable f) : Printable (.product fs)
  | power {base exponent : Expr} (hbase : Printable base) (hexponent : Printable exponent) :
      Printable (.power base exponent)
  | tanh {argument : Expr} (h : Printable argument) : Printable (.tanh argument)
  | coth {argument : Expr} (h : Printable argument) : Printable (.coth argument)

variable {R C : Type} [ComplexArithmetic R C] {bindings : String → Option C} {e e' e'' : Expr}
  {es es' : List Expr}

/-- Two expressions have the same symbols, in the same order, and the same value or error. -/
structure Agrees (bindings : String → Option C) (e e' : Expr) : Prop where
  symbols_eq : e.symbols = e'.symbols
  evaluate_eq : e.evaluate bindings = e'.evaluate bindings

theorem Agrees.refl (e : Expr) : Agrees bindings e e := ⟨rfl, rfl⟩

theorem Agrees.symm (h : Agrees bindings e e') : Agrees bindings e' e :=
  ⟨h.symbols_eq.symm, h.evaluate_eq.symm⟩

theorem Agrees.trans (h : Agrees bindings e e') (h' : Agrees bindings e' e'') :
    Agrees bindings e e'' :=
  ⟨h.symbols_eq.trans h'.symbols_eq, h.evaluate_eq.trans h'.evaluate_eq⟩

theorem Agrees.power {base base' exponent exponent' : Expr} (hbase : Agrees bindings base base')
    (hexponent : Agrees bindings exponent exponent') :
    Agrees bindings (power base exponent) (power base' exponent') :=
  ⟨by rw [symbols, symbols, hbase.symbols_eq, hexponent.symbols_eq],
    by rw [evaluate, evaluate, hbase.evaluate_eq, hexponent.evaluate_eq]⟩

theorem Agrees.tanh (h : Agrees bindings e e') : Agrees bindings (tanh e) (tanh e') :=
  ⟨by rw [symbols, symbols, h.symbols_eq], by rw [evaluate, evaluate, h.evaluate_eq]⟩

theorem Agrees.coth (h : Agrees bindings e e') : Agrees bindings (coth e) (coth e') :=
  ⟨by rw [symbols, symbols, h.symbols_eq], by rw [evaluate, evaluate, h.evaluate_eq]⟩

/-- What the values of operands come to together, from that of the first and that of the others. -/
theorem evaluateAll_cons {total : List C → C} {combine : C → C → C}
    (htotal : ∀ z zs, total (z :: zs) = combine z (total zs)) (e : Expr) (es : List Expr) :
    (do return total (← evaluateAll bindings (e :: es))) = do
      let z ← e.evaluate bindings
      let w ← (do return total (← evaluateAll bindings es))
      return combine z w := by
  rw [evaluateAll]
  cases e.evaluate bindings with
  | error cause => rfl
  | ok z =>
    cases evaluateAll bindings es with
    | error cause => rfl
    | ok zs => exact congrArg Except.ok (htotal z zs)

theorem evaluateAll_singleton {total : List C → C} (htotal : ∀ z, total [z] = z) (e : Expr) :
    (do return total (← evaluateAll bindings [e])) = e.evaluate bindings := by
  rw [evaluateAll, evaluateAll]
  cases e.evaluate bindings with
  | error cause => rfl
  | ok z => exact congrArg Except.ok (htotal z)

section Exact

variable [Field R] [LinearOrder R] [Field C] [Algebra R C] [ExactArithmetic R C]

/-- The value of a sum is that of its first term added to that of the others. -/
theorem evaluate_sum_cons (t : Expr) (ts : List Expr) :
    (sum (t :: ts)).evaluate bindings = do
      let z ← t.evaluate bindings
      let w ← (sum ts).evaluate bindings
      return z + w := by
  have hcons (z : C) (zs : List C) :
      ComplexArithmetic.sum (z :: zs) = z + ComplexArithmetic.sum zs := by
    rw [sum_eq, sum_eq, List.sum_cons]
  rw [evaluate, evaluate, evaluateAll_cons hcons]

theorem Agrees.sum_cons (h : Agrees bindings e e') (hs : Agrees bindings (sum es) (sum es')) :
    Agrees bindings (sum (e :: es)) (sum (e' :: es')) := by
  constructor
  · have hsymbols := hs.symbols_eq
    simp only [symbols, symbolsOf] at hsymbols ⊢
    rw [h.symbols_eq, hsymbols]
  · rw [evaluate_sum_cons, evaluate_sum_cons, h.evaluate_eq, hs.evaluate_eq]

/-- A sum of one term is this term. -/
theorem agrees_sum_singleton (t : Expr) : Agrees bindings (sum [t]) t := by
  refine ⟨by simp [symbols, symbolsOf], ?_⟩
  rw [evaluate, evaluateAll_singleton]
  intro z
  rw [sum_eq, List.sum_singleton]

/-- A sum within a sum leaves no trace in the value. -/
theorem agrees_sum_nested (t u : Expr) (ts : List Expr) :
    Agrees bindings (sum (sum [t, u] :: ts)) (sum (t :: u :: ts)) := by
  refine ⟨by simp [symbols, symbolsOf], ?_⟩
  rw [evaluate_sum_cons (sum [t, u]), evaluate_sum_cons t [u],
    (agrees_sum_singleton u).evaluate_eq, evaluate_sum_cons t, evaluate_sum_cons u]
  cases t.evaluate bindings with
  | error cause => rfl
  | ok x =>
    cases u.evaluate bindings with
    | error cause => rfl
    | ok y =>
      cases (sum ts).evaluate bindings with
      | error cause => rfl
      | ok z => exact congrArg Except.ok (add_assoc x y z)

/-- Lines one after another are read as the sum of what each is read as. -/
theorem agrees_append (line line' : Line) :
    Agrees bindings (line.append line').expr (sum [line.expr, line'.expr]) := by
  cases line with
  | last term => exact .refl _
  | cons term line =>
    have htail := (agrees_sum_singleton _).trans (agrees_append line line')
    exact ((Agrees.refl _).sum_cons htail).trans (agrees_sum_nested _ _ _).symm

variable [IsStrictOrderedRing R]

theorem evaluate_product_cons (f : Expr) (fs : List Expr) :
    (product (f :: fs)).evaluate bindings = do
      let z ← f.evaluate bindings
      let w ← (product fs).evaluate bindings
      return z * w := by
  have hcons (z : C) (zs : List C) :
      ComplexArithmetic.product (z :: zs) = z * ComplexArithmetic.product zs := by
    rw [product_eq, product_eq, List.prod_cons]
  rw [evaluate, evaluate, evaluateAll_cons hcons]

theorem Agrees.product_cons (h : Agrees bindings e e')
    (hs : Agrees bindings (product es) (product es')) :
    Agrees bindings (product (e :: es)) (product (e' :: es')) := by
  constructor
  · have hsymbols := hs.symbols_eq
    simp only [symbols, symbolsOf] at hsymbols ⊢
    rw [h.symbols_eq, hsymbols]
  · rw [evaluate_product_cons, evaluate_product_cons, h.evaluate_eq, hs.evaluate_eq]

theorem agrees_product_singleton (f : Expr) : Agrees bindings (product [f]) f := by
  refine ⟨by simp [symbols, symbolsOf], ?_⟩
  rw [evaluate, evaluateAll_singleton]
  intro z
  rw [product_eq, List.prod_singleton]

end Exact

theorem text_sum (ts : List Expr) : (sum ts).text = String.intercalate " + " (texts ts) := rfl

theorem text_product (fs : List Expr) :
    (product fs).text = String.intercalate "*" (operandTexts fs) := rfl

theorem text_power (base exponent : Expr) :
    (power base exponent).text =
      if exponent.isMinusOne then "1/" ++ enclose base.isAtom base.text
      else enclose base.isAtom base.text ++ "^" ++ enclose exponent.isAtom exponent.text := rfl

theorem text_tanh (argument : Expr) :
    (Expr.tanh argument).text = "tanh(" ++ argument.text ++ ")" := rfl

theorem text_coth (argument : Expr) :
    (Expr.coth argument).text = "coth(" ++ argument.text ++ ")" := rfl

/-- An expression is written as a line and as an operand, which are read as what agrees with it. -/
structure Written (bindings : String → Option C) (e : Expr) : Prop where
  alone : ∃ line : Line, line.text = e.text.toList ∧ Agrees bindings line.expr e
  within : ∃ operand : Operand, operand.text = (enclose e.isAtom e.text).toList ∧
    Agrees bindings operand.expr e

/-- An atom is written as an operand also where it stands alone. -/
theorem Written.of_operand (operand : Operand) (hatom : e.isAtom = true)
    (htext : operand.text = e.text.toList) (h : Agrees bindings operand.expr e) :
    Written bindings e where
  alone := ⟨.last (.last operand), htext, h⟩
  within := ⟨operand, by rw [htext, enclose, if_pos hatom], h⟩

/-- What is no atom is an operand in parentheses. -/
theorem Written.of_line (line : Line) (hatom : e.isAtom = false)
    (htext : line.text = e.text.toList) (h : Agrees bindings line.expr e) :
    Written bindings e where
  alone := ⟨line, htext, h⟩
  within := by
    refine ⟨.enclosed none line, ?_, h⟩
    rw [enclose, hatom, if_neg Bool.false_ne_true, String.toList_append, String.toList_append,
      ← htext]
    rfl

theorem written_number {x : Number} (hx : x.isFinite = true) : Written bindings (number x) := by
  have htext : (Word.number x hx).text = (number x).text.toList := rfl
  cases hatom : (number x).isAtom with
  | true => exact .of_operand (.word (.number x hx)) hatom htext (.refl _)
  | false => exact .of_line (.last (.last (.word (.number x hx)))) hatom htext (.refl _)

/-- The parentheses around the argument of a function make a line an operand. -/
theorem Written.argument (function : Notation.Function) (h : Written bindings e) :
    ∃ operand : Operand,
      operand.text = functionText function ++ '(' :: (e.text.toList ++ [')']) ∧
        Agrees bindings operand.expr (apply function e) := by
  obtain ⟨line, htext, hagrees⟩ := h.alone
  refine ⟨.enclosed function line, by rw [Operand.text, htext], ?_⟩
  rw [Operand.expr]
  cases function with
  | tanh => exact hagrees.tanh
  | coth => exact hagrees.coth

theorem Written.tanh (h : Written bindings e) : Written bindings (tanh e) := by
  obtain ⟨operand, htext, hagrees⟩ := h.argument .tanh
  refine .of_operand operand rfl ?_ hagrees
  rw [htext, text_tanh, String.toList_append, String.toList_append]
  rfl

theorem Written.coth (h : Written bindings e) : Written bindings (coth e) := by
  obtain ⟨operand, htext, hagrees⟩ := h.argument .coth
  refine .of_operand operand rfl ?_ hagrees
  rw [htext, text_coth, String.toList_append, String.toList_append]
  rfl

/-- The literal that is written as a reciprocal is `-1` and no other number. -/
theorem eq_of_isMinusOne (h : e.isMinusOne = true) : e = number (-1) := by
  cases e with
  | number x =>
    obtain ⟨hx, hminus, hrank⟩ := Number.beq_iff.mp h
    have hne : (-1 : Number).rank ≠ 0 := by decide +kernel
    rw [Number.eq_of_rank_eq hx hminus hrank (hrank.symm ▸ hne)]
  | _ => cases h

theorem Written.power {base exponent : Expr} (hbase : Written bindings base)
    (hexponent : Written bindings exponent) : Written bindings (power base exponent) := by
  obtain ⟨operand, htext, hagrees⟩ := hbase.within
  cases hminus : exponent.isMinusOne with
  | true =>
    obtain rfl := eq_of_isMinusOne hminus
    refine .of_line (.last (.inverse operand)) rfl ?_ (hagrees.power (.refl _))
    rw [text_power, if_pos hminus, String.toList_append, ← htext]
    rfl
  | false =>
    obtain ⟨operand', htext', hagrees'⟩ := hexponent.within
    refine .of_line (.last (.cons operand .raised (.last operand'))) rfl ?_
      (hagrees.power hagrees')
    rw [text_power, if_neg (by simp [hminus]), String.toList_append, String.toList_append, ← htext,
      ← htext']
    simp [Line.text, Term.text, Operator.char]

section Exact

variable [Field R] [LinearOrder R] [Field C] [Algebra R C] [ExactArithmetic R C]

theorem exists_line_sum {ts : List Expr} (hne : ts ≠ []) (h : ∀ t ∈ ts, Written bindings t) :
    ∃ line : Line, line.text = (sum ts).text.toList ∧ Agrees bindings line.expr (sum ts) := by
  rw [text_sum]
  induction ts with
  | nil => exact absurd rfl hne
  | cons t ts ih =>
    obtain ⟨ht, hts⟩ := List.forall_mem_cons.mp h
    obtain ⟨line, htext, hagrees⟩ := ht.alone
    cases ts with
    | nil =>
      refine ⟨line, ?_, hagrees.trans (agrees_sum_singleton t).symm⟩
      rw [texts, texts, String.intercalate_singleton, htext]
    | cons u us =>
      obtain ⟨line', htext', hagrees'⟩ := ih (List.cons_ne_nil u us) hts
      refine ⟨line.append line', ?_, ?_⟩
      · rw [texts, texts, String.intercalate_cons_cons, ← texts, Line.text_append, htext, htext']
        simp
      · exact (agrees_append line line').trans
          (hagrees.sum_cons ((agrees_sum_singleton _).trans hagrees'))

variable [IsStrictOrderedRing R]

theorem exists_term_product {fs : List Expr} (hne : fs ≠ []) (h : ∀ f ∈ fs, Written bindings f) :
    ∃ term : Term, term.text = (product fs).text.toList ∧
      Agrees bindings term.expr (product fs) := by
  rw [text_product]
  induction fs with
  | nil => exact absurd rfl hne
  | cons f fs ih =>
    obtain ⟨hf, hfs⟩ := List.forall_mem_cons.mp h
    obtain ⟨operand, htext, hagrees⟩ := hf.within
    cases fs with
    | nil =>
      refine ⟨.last operand, ?_, hagrees.trans (agrees_product_singleton f).symm⟩
      rw [operandTexts, operandTexts, String.intercalate_singleton, ← htext]
      rfl
    | cons g gs =>
      obtain ⟨term, htext', hagrees'⟩ := ih (List.cons_ne_nil g gs) hfs
      refine ⟨.cons operand .times term, ?_, ?_⟩
      · rw [operandTexts, operandTexts, String.intercalate_cons_cons, ← operandTexts, Term.text,
          htext, htext']
        simp [Operator.char]
      · exact hagrees.product_cons ((agrees_product_singleton _).trans hagrees')

/-- What can be printed is written as a line and as an operand. -/
theorem Printable.written (h : Printable e) : Written bindings e := by
  induction h with
  | number hx => exact written_number hx
  | imaginary => exact .of_operand (.word .imaginary) rfl rfl (.refl _)
  | @symbol name hname =>
    exact .of_operand (.word (.symbol name hname)) rfl rfl (.refl _)
  | sum hne _ ih =>
    obtain ⟨line, htext, hagrees⟩ := exists_line_sum hne ih
    exact .of_line line rfl htext hagrees
  | product hne _ ih =>
    obtain ⟨term, htext, hagrees⟩ := exists_term_product hne ih
    exact .of_line (.last term) rfl htext hagrees
  | power _ _ ihBase ihExponent => exact ihBase.power ihExponent
  | tanh _ ih => exact ih.tanh
  | coth _ ih => exact ih.coth

/-- Two expressions of the same text have the same free symbols, and in exact arithmetic they have
    the same value under all bindings. -/
theorem evaluate_eq_of_text_eq (he : Printable e) (he' : Printable e') (h : e.text = e'.text) :
    e.freeSymbols = e'.freeSymbols ∧
      ∀ bindings : String → Option C, e.evaluate bindings = e'.evaluate bindings := by
  have hagrees (bindings : String → Option C) : Agrees bindings e e' := by
    have hwritten : Written bindings e := he.written
    have hwritten' : Written bindings e' := he'.written
    obtain ⟨line, htext, hline⟩ := hwritten.alone
    obtain ⟨line', htext', hline'⟩ := hwritten'.alone
    have hlines : line = line' := Line.text_inj (by rw [htext, htext', h])
    subst hlines
    exact hline.symm.trans hline'
  exact ⟨congrArg sortedNames (hagrees fun _ => none).symbols_eq,
    fun bindings => (hagrees bindings).evaluate_eq⟩

end Exact

/-- A sum is grouped in two ways here, and a negative number is in parentheses for two reasons. -/
theorem evaluate_eq_of_text_eq_grouped :
    ∃ e e' : Expr, e ≠ e' ∧ Printable e ∧ Printable e' ∧ e.text = "x + (-2) + 1/y" ∧
      e'.text = "x + (-2) + 1/y" ∧ e.freeSymbols = e'.freeSymbols ∧
      ∀ bindings : String → Option ℂ, e.evaluate bindings = e'.evaluate bindings := by
  have hx : Printable (symbol "x") := .symbol ⟨by decide, by decide, by decide⟩
  have hy : Printable (symbol "y") := .symbol ⟨by decide, by decide, by decide⟩
  have htwo : Printable (number (-2)) := .number (by decide +kernel)
  have hinverse : Printable (power (symbol "y") (number (-1))) :=
    .power hy (.number (by decide +kernel))
  have hsum {t u : Expr} (ht : Printable t) (hu : Printable u) : Printable (sum [t, u]) :=
    .sum (List.cons_ne_nil _ _)
      (List.forall_mem_cons.mpr ⟨ht, List.forall_mem_singleton.mpr hu⟩)
  have hproduct {f : Expr} (hf : Printable f) : Printable (product [f]) :=
    .product (List.cons_ne_nil _ _) (List.forall_mem_singleton.mpr hf)
  have hwithin : Printable (sum [number (-2)]) :=
    .sum (List.cons_ne_nil _ _) (List.forall_mem_singleton.mpr htwo)
  have hleft := hsum (hsum hx (hproduct htwo)) hinverse
  have hright := hsum hx (hsum (hproduct hwithin) hinverse)
  have htext : (sum [sum [symbol "x", product [number (-2)]],
      power (symbol "y") (number (-1))]).text = "x + (-2) + 1/y" := by decide +kernel
  have htext' : (sum [symbol "x", sum [product [sum [number (-2)]],
      power (symbol "y") (number (-1))]]).text = "x + (-2) + 1/y" := by decide +kernel
  exact ⟨_, _, by simp, hleft, hright, htext, htext',
    evaluate_eq_of_text_eq hleft hright (htext.trans htext'.symm)⟩

end Expr

end CircuitCode
