import CircuitCode.Expr.Evaluation
import CircuitCode.Proofs.SymbolTable

/-!
# Symbols of expressions

Merging sums and products keeps the symbols of the operands in their order. Evaluation reads the
symbols in this order: it succeeds if all of them have values, and otherwise it names the first
that has none (`Expr.reads_evaluate`).
-/

namespace CircuitCode

namespace Expr

theorem symbolsOf_append (es es' : List Expr) :
    symbolsOf (es ++ es') = symbolsOf es ++ symbolsOf es' := by
  rw [symbolsOf_eq_flatMap, symbolsOf_eq_flatMap, symbolsOf_eq_flatMap, List.flatMap_append]

theorem symbolsOf_terms (e : Expr) : symbolsOf e.terms = e.symbols := by
  cases e <;> simp [terms, symbolsOf, symbols]

theorem symbolsOf_factors (e : Expr) : symbolsOf e.factors = e.symbols := by
  cases e <;> simp [factors, symbolsOf, symbols]

@[simp]
theorem symbols_add (a b : Expr) : (a + b).symbols = a.symbols ++ b.symbols := by
  show symbols (sum (a.terms ++ b.terms)) = _
  rw [symbols, symbolsOf_append, symbolsOf_terms, symbolsOf_terms]

@[simp]
theorem symbols_mul (a b : Expr) : (a * b).symbols = a.symbols ++ b.symbols := by
  show symbols (product (a.factors ++ b.factors)) = _
  rw [symbols, symbolsOf_append, symbolsOf_factors, symbolsOf_factors]

@[simp]
theorem symbols_recip (e : Expr) : e.recip.symbols = e.symbols := by
  simp [recip, symbols]

@[simp]
theorem symbols_sqrt (e : Expr) : e.sqrt.symbols = e.symbols := by
  simp [sqrt, symbols]

@[simp]
theorem symbols_div (a b : Expr) : (a / b).symbols = a.symbols ++ b.symbols := by
  show symbols (a * b.recip) = _
  simp

/-- The free symbols of an expression are those that occur in it. -/
theorem mem_freeSymbols {e : Expr} {name : String} : name ∈ e.freeSymbols ↔ name ∈ e.symbols :=
  mem_sortedNames

section

variable {R C α β : Type} [ComplexArithmetic R C] {bindings : String → Option C}

/-- The result of a computation that reads the given symbols in order: there is one if all of them
    have values, and otherwise the first that has none is named. -/
def Reads (bindings : String → Option C) (names : List String)
    (result : Except EvaluationError α) : Prop :=
  match names.find? fun name => (bindings name).isNone with
  | none => ∃ a, result = .ok a
  | some name => result = .error (.unboundSymbol name)

theorem reads_ok (a : α) : Reads bindings [] (.ok a : Except EvaluationError α) := ⟨a, rfl⟩

theorem Reads.bind {names names' : List String} {result : Except EvaluationError α}
    {next : α → Except EvaluationError β} (h : Reads bindings names result)
    (hnext : ∀ a, Reads bindings names' (next a)) :
    Reads bindings (names ++ names') (result >>= next) := by
  unfold Reads at h ⊢
  rw [List.find?_append]
  cases hfind : names.find? fun name => (bindings name).isNone with
  | none =>
    rw [hfind] at h
    obtain ⟨a, rfl⟩ := h
    exact hnext a
  | some name =>
    rw [hfind] at h
    obtain rfl : result = _ := h
    rfl

/-- What is made of a result reads nothing more. -/
theorem Reads.map {names : List String} {result : Except EvaluationError α}
    (h : Reads bindings names result) (f : α → β) :
    Reads bindings names (result >>= fun a => .ok (f a)) := by
  have hbind : Reads bindings (names ++ []) (result >>= fun a => .ok (f a)) :=
    h.bind fun a => reads_ok (f a)
  rwa [List.append_nil] at hbind

theorem reads_symbol (name : String) :
    Reads bindings [name] ((symbol name).evaluate bindings) := by
  unfold Reads
  rw [evaluate]
  cases hname : bindings name with
  | none => simp [hname]
  | some z => simp [hname]

mutual

/-- Evaluation reads the symbols of an expression. -/
theorem reads_evaluate : ∀ e : Expr, Reads bindings e.symbols (e.evaluate bindings)
  | number x => by
    rw [symbols, evaluate]
    exact reads_ok _
  | imaginary => by
    rw [symbols, evaluate]
    exact reads_ok _
  | symbol name => by
    rw [symbols]
    exact reads_symbol name
  | sum ts => by
    rw [symbols, evaluate]
    exact (reads_evaluateAll ts).map _
  | product fs => by
    rw [symbols, evaluate]
    exact (reads_evaluateAll fs).map _
  | power base exponent => by
    rw [symbols, evaluate]
    exact (reads_evaluate base).bind fun z => (reads_evaluate exponent).map _
  | tanh argument => by
    rw [symbols, evaluate]
    exact (reads_evaluate argument).map _
  | coth argument => by
    rw [symbols, evaluate]
    exact (reads_evaluate argument).map _

theorem reads_evaluateAll : ∀ es : List Expr,
    Reads bindings (symbolsOf es) (evaluateAll bindings es)
  | [] => by
    rw [symbolsOf, evaluateAll]
    exact reads_ok _
  | e :: es => by
    rw [symbolsOf, evaluateAll]
    exact (reads_evaluate e).bind fun z => (reads_evaluateAll es).map _

end

/-- An expression has a value exactly if each of its symbols has one. -/
theorem exists_evaluate_eq_ok_iff {e : Expr} :
    (∃ z, e.evaluate bindings = .ok z) ↔ ∀ name ∈ e.symbols, (bindings name).isSome := by
  have hreads : Reads bindings e.symbols (e.evaluate bindings) := reads_evaluate e
  unfold Reads at hreads
  cases hfind : e.symbols.find? fun name => (bindings name).isNone with
  | none =>
    rw [hfind] at hreads
    simp only [List.find?_eq_none, Bool.not_eq_true, Option.isNone_eq_false_iff] at hfind
    exact iff_of_true hreads hfind
  | some name =>
    rw [hfind] at hreads
    have hnone := List.find?_some hfind
    constructor
    · rintro ⟨z, hz⟩
      rw [hz] at hreads
      cases hreads
    · intro hall
      have hsome := hall name (List.mem_of_find?_eq_some hfind)
      simp [Option.isNone_iff_eq_none.mp hnone] at hsome

end

end Expr

end CircuitCode
