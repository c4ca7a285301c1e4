import CircuitCode.Proofs.Expr.Symbols

/-!
# Expressions and what is bound to their symbols

The value of an expression, or the error in its place, depends on what is bound to its free symbols
and on nothing else (`Expr.evaluation_reads_symbols`). Putting an expression in the place of a
symbol is the same as binding the symbol to the value of that expression
(`Expr.evaluation_of_substitute`).
-/

namespace CircuitCode

/-- A list of different names in order is known from which names these are. -/
theorem sortedNames_congr {names names' : List String}
    (h : ∀ name, name ∈ names ↔ name ∈ names') : sortedNames names = sortedNames names' := by
  have hsorted (names : List String) : (sortedNames names).Pairwise (· < ·) :=
    SymbolTable.sorted_foldl_insert _ List.Pairwise.nil
  have hnodup (names : List String) : (sortedNames names).Nodup :=
    SymbolTable.nodup_names_ofList _
  have hperm : (sortedNames names).Perm (sortedNames names') := by
    rw [List.perm_ext_iff_of_nodup (hnodup _) (hnodup _)]
    intro name
    rw [mem_sortedNames, mem_sortedNames, h]
  refine hperm.eq_of_pairwise ?_ (hsorted _) (hsorted _)
  intro name other _ _ hlt hgt
  exact absurd (String.lt_trans hlt hgt) (String.lt_irrefl name)

namespace Expr

/-- Induction on an expression: what holds of a sum and of a product if it holds of each operand,
    and likewise of the other forms, holds of all expressions. -/
@[elab_as_elim]
theorem induction {motive : Expr → Prop} (number : ∀ x, motive (number x))
    (imaginary : motive imaginary) (symbol : ∀ name, motive (symbol name))
    (sum : ∀ ts, (∀ t ∈ ts, motive t) → motive (sum ts))
    (product : ∀ fs, (∀ f ∈ fs, motive f) → motive (product fs))
    (power : ∀ base exponent, motive base → motive exponent → motive (power base exponent))
    (tanh : ∀ argument, motive argument → motive (tanh argument))
    (coth : ∀ argument, motive argument → motive (coth argument)) (e : Expr) : motive e := by
  cases e with
  | number x => exact number x
  | imaginary => exact imaginary
  | symbol name => exact symbol name
  | sum ts =>
    exact sum ts fun t _ => induction number imaginary symbol sum product power tanh coth t
  | product fs =>
    exact product fs fun f _ => induction number imaginary symbol sum product power tanh coth f
  | power base exponent =>
    exact power base exponent (induction number imaginary symbol sum product power tanh coth base)
      (induction number imaginary symbol sum product power tanh coth exponent)
  | tanh argument =>
    exact tanh argument (induction number imaginary symbol sum product power tanh coth argument)
  | coth argument =>
    exact coth argument (induction number imaginary symbol sum product power tanh coth argument)

variable {R C : Type} [ComplexArithmetic R C] {bindings bindings' : String → Option C}

/-- Operands that are changed are evaluated as before under other bindings if each of them is. -/
theorem evaluateAll_map {es : List Expr} {change : Expr → Expr}
    (h : ∀ e ∈ es, (change e).evaluate bindings = e.evaluate bindings') :
    evaluateAll bindings (es.map change) = evaluateAll bindings' es := by
  induction es with
  | nil => rw [List.map_nil, evaluateAll, evaluateAll]
  | cons e es ih =>
    obtain ⟨he, hes⟩ := List.forall_mem_cons.mp h
    rw [List.map_cons, evaluateAll, evaluateAll, he, ih hes]

section Bound

variable {e e' : Expr}

/-- Evaluation reads nothing but what is bound to the symbols of the expression. -/
theorem evaluate_congr (h : ∀ name ∈ e.symbols, bindings name = bindings' name) :
    e.evaluate bindings = e.evaluate bindings' := by
  have hall {es : List Expr}
      (ih : ∀ e ∈ es, (∀ name ∈ e.symbols, bindings name = bindings' name) →
        e.evaluate bindings = e.evaluate bindings')
      (h : ∀ name ∈ symbolsOf es, bindings name = bindings' name) :
      evaluateAll bindings es = evaluateAll bindings' es := by
    rw [symbolsOf_eq_flatMap] at h
    have hmap : evaluateAll bindings (es.map id) = evaluateAll bindings' es :=
      evaluateAll_map fun e he =>
        ih e he fun name hname => h name (List.mem_flatMap_of_mem he hname)
    rwa [List.map_id] at hmap
  induction e using Expr.induction with
  | number x => rw [evaluate, evaluate]
  | imaginary => rw [evaluate, evaluate]
  | symbol name => rw [evaluate, evaluate, h name (by simp [symbols])]
  | sum ts ih => rw [evaluate, evaluate, hall ih h]
  | product fs ih => rw [evaluate, evaluate, hall ih h]
  | power base exponent ihBase ihExponent =>
    rw [symbols] at h
    obtain ⟨hbase, hexponent⟩ := List.forall_mem_append.mp h
    rw [evaluate, evaluate, ihBase hbase, ihExponent hexponent]
  | tanh argument ih => rw [evaluate, evaluate, ih h]
  | coth argument ih => rw [evaluate, evaluate, ih h]

/-- The name is the first of those in a list to which nothing is bound. -/
def FirstUnbound (bindings : String → Option C) (names : List String) (name : String) : Prop :=
  ∃ before after, names = before ++ name :: after ∧ (∀ other ∈ before, (bindings other).isSome) ∧
    bindings name = none

theorem firstUnbound_iff_find? {names : List String} {name : String} :
    FirstUnbound bindings names name ↔
      (names.find? fun name => (bindings name).isNone) = some name := by
  rw [List.find?_eq_some_iff_append, FirstUnbound]
  simp only [Option.isNone_iff_eq_none, Bool.not_eq_eq_eq_not, Bool.not_true,
    Option.isNone_eq_false_iff]
  constructor
  · rintro ⟨before, after, hnames, hbefore, hname⟩
    exact ⟨hname, before, after, hnames, hbefore⟩
  · rintro ⟨hname, before, after, hnames, hbefore⟩
    exact ⟨before, after, hnames, hbefore, hname⟩

/-- An evaluation fails at the first symbol that is not bound, and names it. -/
theorem evaluate_eq_error_iff {cause : EvaluationError} :
    e.evaluate bindings = .error cause ↔
      ∃ name, FirstUnbound bindings e.symbols name ∧ cause = .unboundSymbol name := by
  have hreads : Reads bindings e.symbols (e.evaluate bindings) := reads_evaluate e
  simp only [firstUnbound_iff_find?]
  unfold Reads at hreads
  cases hfind : e.symbols.find? fun name => (bindings name).isNone with
  | none =>
    rw [hfind] at hreads
    obtain ⟨z, hz⟩ := hreads
    simp [hz]
  | some first =>
    rw [hfind] at hreads
    simp [hreads, eq_comm]

/-- The first of the names that is not bound is also the first if more names follow. -/
theorem FirstUnbound.append {names : List String} {name : String}
    (h : FirstUnbound bindings names name) (more : List String) :
    FirstUnbound bindings (names ++ more) name := by
  obtain ⟨before, after, rfl, hbefore, hname⟩ := h
  exact ⟨before, after ++ more, by simp, hbefore, hname⟩

/-- A sum, a product and a quotient read the symbols of the left operand and then those of the
    right one. -/
theorem symbols_of_mem_combined {combined : Expr} (h : combined ∈ [e + e', e * e', e / e']) :
    combined.symbols = e.symbols ++ e'.symbols := by
  simp only [List.mem_cons, List.not_mem_nil, or_false] at h
  obtain rfl | rfl | rfl := h <;> simp

theorem freeSymbols_of_symbols_append {combined : Expr}
    (h : combined.symbols = e.symbols ++ e'.symbols) :
    combined.freeSymbols = sortedNames (e.freeSymbols ++ e'.freeSymbols) := by
  refine sortedNames_congr fun name => ?_
  rw [h, List.mem_append, List.mem_append, mem_freeSymbols, mem_freeSymbols]

end Bound

/-- An expression has a value exactly if all its free symbols are bound; otherwise the error names
    the first symbol in reading order that is not. Nothing else that is bound makes a difference.
    Sums, products and quotients have the free symbols of both operands, and where the left operand
    fails they fail with its error, also if the right one fails too. -/
theorem evaluation_reads_symbols (e : Expr) (bindings : String → Option C) :
    ((∃ z, e.evaluate bindings = .ok z) ↔ ∀ name ∈ e.freeSymbols, (bindings name).isSome) ∧
      (∀ cause, e.evaluate bindings = .error cause ↔
        ∃ name, FirstUnbound bindings e.symbols name ∧ cause = .unboundSymbol name) ∧
      (∀ bindings' : String → Option C, (∀ name ∈ e.freeSymbols, bindings name = bindings' name) →
        e.evaluate bindings = e.evaluate bindings') ∧
      ∀ e' : Expr, ∀ combined ∈ [e + e', e * e', e / e'],
        combined.freeSymbols = sortedNames (e.freeSymbols ++ e'.freeSymbols) ∧
          ∀ cause, e.evaluate bindings = .error cause →
            combined.evaluate bindings = .error cause := by
  simp only [mem_freeSymbols]
  refine ⟨exists_evaluate_eq_ok_iff, fun cause => evaluate_eq_error_iff,
    fun bindings' => evaluate_congr, ?_⟩
  intro e' combined hcombined
  have hsymbols := symbols_of_mem_combined hcombined
  refine ⟨freeSymbols_of_symbols_append hsymbols, ?_⟩
  intro cause hcause
  obtain ⟨name, hfirst, rfl⟩ := evaluate_eq_error_iff.mp hcause
  refine evaluate_eq_error_iff.mpr ⟨name, ?_, rfl⟩
  rw [hsymbols]
  exact hfirst.append _

section Substitution

variable {name : String} {value : Expr}

/-- An expression in the place of a symbol leaves its own symbols there. -/
theorem symbols_substitute (e : Expr) :
    (e.substitute name value).symbols =
      e.symbols.flatMap fun other => if other = name then value.symbols else [other] := by
  have hall {es : List Expr}
      (ih : ∀ e ∈ es, (e.substitute name value).symbols =
        e.symbols.flatMap fun other => if other = name then value.symbols else [other]) :
      symbolsOf (substituteIn es name value) =
        (symbolsOf es).flatMap fun other => if other = name then value.symbols else [other] := by
    rw [substituteIn_eq_map, symbolsOf_eq_flatMap, symbolsOf_eq_flatMap, List.flatMap_map,
      List.flatMap_assoc]
    rw [List.flatMap_def, List.flatMap_def, List.map_congr_left ih]
  induction e using Expr.induction with
  | number x => rw [substitute, symbols, List.flatMap_nil]
  | imaginary => rw [substitute, symbols, List.flatMap_nil]
  | symbol other =>
    rw [substitute, symbols, List.flatMap_singleton]
    split
    · rfl
    · rw [symbols]
  | sum ts ih => rw [substitute, symbols, symbols, hall ih]
  | product fs ih => rw [substitute, symbols, symbols, hall ih]
  | power base exponent ihBase ihExponent =>
    rw [substitute, symbols, symbols, ihBase, ihExponent, List.flatMap_append]
  | tanh argument ih => rw [substitute, symbols, symbols, ih]
  | coth argument ih => rw [substitute, symbols, symbols, ih]

theorem mem_symbols_substitute {e : Expr} {other : String} :
    other ∈ (e.substitute name value).symbols ↔
      (other ∈ e.symbols ∧ other ≠ name) ∨ (name ∈ e.symbols ∧ other ∈ value.symbols) := by
  rw [symbols_substitute, List.mem_flatMap]
  constructor
  · rintro ⟨old, hold, hother⟩
    by_cases h : old = name
    · rw [if_pos h] at hother
      exact .inr ⟨h ▸ hold, hother⟩
    · rw [if_neg h, List.mem_singleton] at hother
      subst hother
      exact .inl ⟨hold, h⟩
  · rintro (⟨hold, h⟩ | ⟨hname, hother⟩)
    · exact ⟨other, hold, by simp [h]⟩
    · exact ⟨name, hname, by simpa using hother⟩

/-- An expression that has a value may be evaluated before it is put in the place of a symbol. -/
theorem evaluate_substitute {z : C} (hvalue : value.evaluate bindings = .ok z) (e : Expr) :
    (e.substitute name value).evaluate bindings = e.evaluate (bind name z bindings) := by
  have hall {es : List Expr}
      (ih : ∀ e ∈ es, (e.substitute name value).evaluate bindings =
        e.evaluate (bind name z bindings)) :
      evaluateAll bindings (substituteIn es name value) =
        evaluateAll (bind name z bindings) es := by
    rw [substituteIn_eq_map, evaluateAll_map ih]
  induction e using Expr.induction with
  | number x => rw [substitute, evaluate, evaluate]
  | imaginary => rw [substitute, evaluate, evaluate]
  | symbol other =>
    rw [substitute, evaluate, bind]
    split
    · exact hvalue
    · rw [evaluate]
  | sum ts ih => rw [substitute, evaluate, evaluate, hall ih]
  | product fs ih => rw [substitute, evaluate, evaluate, hall ih]
  | power base exponent ihBase ihExponent =>
    rw [substitute, evaluate, evaluate, ihBase, ihExponent]
  | tanh argument ih => rw [substitute, evaluate, evaluate, ih]
  | coth argument ih => rw [substitute, evaluate, evaluate, ih]

/-- Without a value an expression makes every expression fail in which it takes the place of a
    symbol. -/
theorem exists_evaluate_substitute_eq_error {e : Expr} (hname : name ∈ e.symbols)
    {cause : EvaluationError} (hvalue : value.evaluate bindings = .error cause) :
    ∃ cause', (e.substitute name value).evaluate bindings = .error cause' := by
  obtain ⟨missing, ⟨before, after, hsymbols, -, hmissing⟩, rfl⟩ := evaluate_eq_error_iff.mp hvalue
  cases hresult : (e.substitute name value).evaluate bindings with
  | error cause' => exact ⟨cause', rfl⟩
  | ok z =>
    have hbound := exists_evaluate_eq_ok_iff.mp ⟨z, hresult⟩ missing
      (mem_symbols_substitute.mpr (.inr ⟨hname, by simp [hsymbols]⟩))
    simp [hmissing] at hbound

end Substitution

/-- An expression in the place of a symbol brings its free symbols there. If it has a value, the
    result is that of binding the symbol to this value, and if it has none while the symbol occurs,
    there is none. Nothing is assumed of the arithmetic. -/
theorem evaluation_of_substitute (e value : Expr) (name : String) (bindings : String → Option C) :
    (e.substitute name value).freeSymbols =
        sortedNames (e.freeSymbols.filter (· ≠ name) ++
          if name ∈ e.freeSymbols then value.freeSymbols else []) ∧
      (∀ z, value.evaluate bindings = .ok z →
        (e.substitute name value).evaluate bindings = e.evaluate (bind name z bindings)) ∧
      (name ∈ e.freeSymbols → ∀ cause, value.evaluate bindings = .error cause →
        ∃ cause', (e.substitute name value).evaluate bindings = .error cause') := by
  refine ⟨sortedNames_congr fun other => ?_, fun z hz => evaluate_substitute hz e,
    fun hname cause hcause =>
      exists_evaluate_substitute_eq_error (mem_freeSymbols.mp hname) hcause⟩
  rw [mem_symbols_substitute, List.mem_append, List.mem_filter, mem_freeSymbols]
  by_cases hname : name ∈ e.symbols <;> simp [mem_freeSymbols, hname]

end Expr

end CircuitCode
