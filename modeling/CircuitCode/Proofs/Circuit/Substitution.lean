import CircuitCode.Proofs.Circuit.Short
import CircuitCode.Proofs.Expr.Substitution

/-!
# Values before and after

The expression of a circuit with values for its parameters can be had in two ways: by writing the
values at once, or by writing symbols and putting the values of the table in for them, in whatever
order. Both give the same tree, unless a symbol stands for two things or a resistor with the value
zero, which only the first way sees, shorts a connection.
-/

namespace CircuitCode

/-- Only a resistor with the value zero has an expression that is a literal zero. -/
theorem Element.isZeroResistor_of_isZero_expression {e : Element} {options : ExpressionOptions}
    (h : (e.expression options).isZero = true) : e.isZeroResistor = true := by
  rw [expression, ElementKind.isZero_expression, Bool.and_eq_true] at h
  obtain ⟨hkind, hzero⟩ := h
  rw [isZeroResistor, hkind, Bool.true_and, valueAt]
  cases hp : e.parameters with
  | nil => rfl
  | cons p rest =>
    rw [hp] at hzero
    change (e.operand options p).isZero = true at hzero
    unfold operand at hzero
    by_cases hsubstitute : options.substitute = true
    · rwa [if_pos hsubstitute] at hzero
    · rw [if_neg hsubstitute] at hzero
      cases hzero

namespace Circuit

variable {c : Circuit}

/-- Without a zero resistor among the branches of its parallel connections a circuit has an
    expression that is put together from those of all elements. -/
theorem expression_eq_fold_join
    (hshort : ∀ d ∈ c.connections, d.kind = .parallel →
      ∀ e, .leaf e ∈ d.children → e.isZeroResistor = false) (options : ExpressionOptions) :
    c.expression options = c.root.toNode.fold (fun e => e.expression options) .join := by
  refine (Node.expression_of_unshorted ?_).1
  intro d hd hkind e he
  by_cases hzero : (e.expression options).isZero = true
  · have hresistor := hshort d hd hkind e he
    rw [Element.isZeroResistor_of_isZero_expression hzero] at hresistor
    cases hresistor
  · exact Bool.eq_false_iff.mpr hzero

section

variable {order : SymbolTable Number}

/-- In whatever order they stand, the entries of the table are those of all parameters. -/
theorem perm_parameterSymbols (hdistinct : c.parameterNames.Nodup)
    (horder : order.Perm c.symbolValues) : order.Perm (c.elements.flatMap parameterSymbols) :=
  horder.trans (SymbolTable.perm_ofList_iff.mpr hdistinct)

theorem find?_parameterSymbol (hdistinct : c.parameterNames.Nodup)
    (horder : order.Perm c.symbolValues) {e : Element} (he : e ∈ c.elements) {p : Parameter}
    (hp : p ∈ e.parameters) : order.find? (e.parameterSymbol p.name) = some p.value := by
  have hentries := perm_parameterSymbols hdistinct horder
  have hnames : order.names.Nodup := (hentries.map Prod.fst).nodup_iff.mpr hdistinct
  have hmem : (e.parameterSymbol p.name, p.value) ∈ order :=
    hentries.mem_iff.mpr (List.mem_flatMap.mpr ⟨e, he, List.mem_map_of_mem hp⟩)
  exact SymbolTable.find?_of_mem hnames hmem

theorem find?_eq_none_of_notMem (hdistinct : c.parameterNames.Nodup)
    (horder : order.Perm c.symbolValues) {s : String} (hs : s ∉ c.parameterNames) :
    order.find? s = none := by
  have hnames := (perm_parameterSymbols hdistinct horder).map Prod.fst
  by_cases hsome : (order.find? s).isSome
  · exact absurd (hnames.mem_iff.mp (SymbolTable.isSome_find?_iff.mp hsome)) hs
  · simpa using hsome

/-- Values put in for the symbols of an element give its expression with values. The name of the
    frequency stays, since it is no symbol of a parameter. -/
theorem substituteAll_element (hdistinct : c.parameterNames.Nodup)
    (horder : order.Perm c.symbolValues) {s : String} (hs : s ∉ c.parameterNames) {e : Element}
    (he : e ∈ c.elements) :
    (e.expression { frequency := s }).substituteAll order =
      e.expression { frequency := s, substitute := true } := by
  refine Element.rel_expression (Expr.congruence_substituteAll order) ?_ ?_
  · intro p hp
    show (Expr.symbol (e.parameterSymbol p.name)).substituteAll order = .number p.value
    rw [Expr.substituteAll_symbol, find?_parameterSymbol hdistinct horder he hp]
    rfl
  · show (Expr.symbol s).substituteAll order = .symbol s
    rw [Expr.substituteAll_symbol, find?_eq_none_of_notMem hdistinct horder hs]
    rfl

end

/-- Values put in for all symbols of parameters, one after the other in any order, give the
    expression that was formed with these values. -/
theorem substituteAll_expression {s : String} (hdistinct : c.parameterNames.Nodup)
    (hs : s ∉ c.parameterNames)
    (hshort : ∀ d ∈ c.connections, d.kind = .parallel →
      ∀ e, .leaf e ∈ d.children → e.isZeroResistor = false)
    {order : SymbolTable Number} (horder : order.Perm c.symbolValues) :
    (c.expression { frequency := s }).substituteAll order =
      c.expression { frequency := s, substitute := true } := by
  rw [expression_eq_fold_join hshort, expression_eq_fold_join hshort,
    Node.substituteAll_fold_join]
  exact Node.fold_congr fun e he => substituteAll_element hdistinct horder hs he

/-- Two resistors with the value zero, neither of them a branch of the parallel connection. -/
def bypassedWarburg : Circuit :=
  (parse "R\x7bR=0\x7d([R\x7bR=0\x7dL]W)").toOption.getD ⟨⟨.series, []⟩⟩

/-- The values may be put in from the last symbol to the first. -/
theorem substituteAll_expression_bypassedWarburg :
    bypassedWarburg.symbolValues.names = ["L_L_1", "R_R_1", "R_R_2", "Y_W_1"] ∧
      (bypassedWarburg.expression { frequency := "x" }).substituteAll
          bypassedWarburg.symbolValues.reverse =
        bypassedWarburg.expression { frequency := "x", substitute := true } := by
  have hnames : bypassedWarburg.parameterNames = ["R_R_1", "R_R_2", "L_L_1", "Y_W_1"] := by
    decide +kernel
  have hall : (bypassedWarburg.connections.all fun d => d.kind != .parallel ||
      d.children.all fun child => !child.fold Element.isZeroResistor fun _ _ => false) = true := by
    decide +kernel
  refine ⟨by decide +kernel, substituteAll_expression ?_ ?_ ?_ (List.reverse_perm _)⟩
  · rw [hnames]
    decide
  · rw [hnames]
    decide
  · intro d hd hkind e he
    have hchildren := List.all_eq_true.mp hall d hd
    rw [hkind, bne_self_eq_false, Bool.false_or] at hchildren
    have hleaf := List.all_eq_true.mp hchildren _ he
    exact Bool.not_eq_true' _ ▸ hleaf

end Circuit

end CircuitCode
