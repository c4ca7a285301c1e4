import CircuitCode.Circuit.Impedance
import CircuitCode.Proofs.Circuit.Parsed
import CircuitCode.Proofs.Element.Congruence
import CircuitCode.Proofs.Number.Machine
import CircuitCode.Proofs.SymbolTable

/-!
# Short circuits

On the machine a parallel connection has the impedance zero if one of its branches has. Its
expression knows of a short only if a branch is a resistor written with the value zero. Any other
zero among the branches is inverted, and the result is not a number. So the expression is zero
only if there is such a resistor, or if the sum of inverses is too large to be inverted.
-/

namespace CircuitCode

open ComplexArithmetic CircuitCode.Expr

section

variable {R C : Type} [ComplexArithmetic R C]

/-- The assignment of a frequency to its symbol, and of nothing else. -/
def atFrequency (f : R) : String → Option C := Expr.bind frequencySymbol (ofReal f) fun _ => none

/-- The value of an element's expression at a frequency. -/
def Element.expressionValue (e : Element) (f : R) : C :=
  match (e.expression { substitute := true }).evaluate (atFrequency f) with
  | .ok z => z
  | .error _ => zero

/-- The value of a connection's expression from those of its children, each with a flag that
    says whether it is a literal zero. -/
def combineFormal (kind : ConnectionKind) (children : List (Bool × C)) : C :=
  match kind with
  | .series => sum (children.map Prod.snd)
  | .parallel =>
    if children.any Prod.fst then zero else inv (sum (children.map fun child => inv child.2))

/-- Whether the expression of a tree is a literal zero, and its value. Of the leaves it is known
    which are literal zeros and what values they have. -/
def Node.formal {α : Type} (short : α → Bool) (leaf : α → C) : Node α → Bool × C :=
  fold (fun a => (short a, leaf a)) fun kind children => (false, combineFormal kind children)

/-- The value of a tree's expression. -/
def Node.formalValue {α : Type} (short : α → Bool) (leaf : α → C) (node : Node α) : C :=
  (node.formal short leaf).2

end

/-- A resistor with the value zero, the one element whose expression is a literal zero. -/
def Element.isZeroResistor (e : Element) : Bool := e.kind = .resistor && e.valueAt 0 == 0

theorem ElementKind.isZero_expression (kind : ElementKind) (p : Nat → Expr) (jω : Expr) :
    (kind.expression p jω).isZero = (kind = .resistor && (p 0).isZero) := by
  cases kind <;> rfl

namespace Element

section

variable {R C : Type} [ComplexArithmetic R C]

theorem alike_symbol {bindings bindings' : String → Option C} {name name' : String} {z : C}
    (h : bindings name = some z) (h' : bindings' name' = some z) :
    Alike bindings bindings' (.symbol name) (.symbol name') :=
  .of_hasValue (hasValue_symbol h) (hasValue_symbol h') rfl rfl rfl rfl

theorem atFrequency_frequencySymbol (f : R) :
    atFrequency f frequencySymbol = some (ofReal f : C) := by
  rw [atFrequency, Expr.bind, if_pos rfl]

theorem hasValue_expressionValue (e : Element) (f : R) :
    HasValue (atFrequency f) (e.expression { substitute := true }) (e.expressionValue f : C) := by
  have hf : atFrequency f frequencySymbol = some (ofReal f : C) := atFrequency_frequencySymbol f
  have halike : Alike (atFrequency f : String → Option C) (atFrequency f)
      (e.expression { substitute := true }) (e.expression { substitute := true }) :=
    rel_expression alike_congruence (fun p _ => alike_congruence.number p.value)
      (alike_symbol hf hf)
  obtain ⟨z, hz, -⟩ := halike.value
  rw [expressionValue, hz]
  exact hz

/-- An assignment that gives the symbols of an element's parameters their values makes the
    expression with symbols have the value of that with numbers. -/
theorem hasValue_expression_symbols {e : Element} {f : R} {bindings : String → Option C}
    (hf : bindings frequencySymbol = some (ofReal f))
    (hp : ∀ p ∈ e.parameters, bindings (e.parameterSymbol p.name) =
      some (ComplexArithmetic.number p.value)) :
    HasValue bindings (e.expression {}) (e.expressionValue f : C) := by
  have hf' : atFrequency f frequencySymbol = some (ofReal f : C) := atFrequency_frequencySymbol f
  have halike : Alike (atFrequency f) bindings (e.expression { substitute := true })
      (e.expression {}) := by
    refine rel_expression alike_congruence (fun p hmem => ?_) (alike_symbol hf' hf)
    exact .of_hasValue (hasValue_number p.value) (hasValue_symbol (hp p hmem)) rfl rfl rfl rfl
  obtain ⟨z, hz, hz'⟩ := halike.value
  rw [expressionValue, hz]
  exact hz'

end

/-- With values for the parameters the zero resistors are the literal zeros. -/
theorem isZero_expression_substitute (e : Element) {frequency : String} :
    (e.expression { frequency := frequency, substitute := true }).isZero = e.isZeroResistor := by
  rw [expression, ElementKind.isZero_expression, operand_of_substitute rfl]
  rfl

/-- With symbols for the parameters no element is a literal zero. -/
theorem isZero_expression_symbols {e : Element} (he : e.WellFormed) {frequency : String} :
    (e.expression { frequency := frequency }).isZero = false := by
  rw [expression, ElementKind.isZero_expression]
  by_cases hkind : e.kind = .resistor
  · have hnames := he.names
    rw [hkind] at hnames
    cases hp : e.parameters with
    | nil =>
      rw [hp] at hnames
      cases hnames
    | cons p rest => exact Bool.and_false _
  · rw [decide_eq_false hkind, Bool.false_and]

end Element

theorem hasValue_recip {bindings : String → Option MachineComplex} {e : Expr} {z : MachineComplex}
    (h : HasValue bindings e z) : HasValue bindings e.recip (inv z) := by
  rw [← MachineComplex.power_neg_one]
  exact h.power (hasValue_number (-1))

namespace Node

variable {α : Type} {bindings : String → Option MachineComplex} {short : α → Bool}
  {leaf : α → MachineComplex}

theorem formal_branch {kind : ConnectionKind} {children : List (Node α)} :
    (branch kind children).formal short leaf =
      (false, combineFormal kind (children.map (formal short leaf))) := by
  rw [formal, fold_branch]

/-- The expression of a tree has its formal value. The literal zeros among the branches of a
    parallel connection are leaves, since there is no other parallel connection among them. -/
theorem hasValue_formalValue {e : α → Expr} {node : Node α} (halternating : node.Alternating)
    (hvalue : ∀ a ∈ node.leaves, HasValue bindings (e a) (leaf a))
    (hshort : ∀ a ∈ node.leaves, (e a).isZero = short a) :
    HasValue bindings (node.expression e) (node.formalValue short leaf) ∧
      (node.kind? ≠ some .parallel → (node.expression e).isZero = (node.formal short leaf).1) := by
  induction node using Node.induction with
  | leaf a => exact ⟨hvalue a List.mem_cons_self, fun _ => hshort a List.mem_cons_self⟩
  | branch kind children ih =>
    have hchild : ∀ child ∈ children,
        HasValue bindings (child.expression e) (child.formalValue short leaf) ∧
          (child.kind? ≠ some .parallel →
            (child.expression e).isZero = (child.formal short leaf).1) := by
      intro child hchild
      apply ih child hchild (alternating_branch.mp halternating child hchild).2
      · intro a ha
        exact hvalue a (mem_leaves_branch.mpr ⟨child, hchild, ha⟩)
      · intro a ha
        exact hshort a (mem_leaves_branch.mpr ⟨child, hchild, ha⟩)
    rw [expression, fold_branch, ← expression, formalValue, formal_branch]
    cases kind with
    | series =>
      refine ⟨?_, fun _ => rfl⟩
      rw [combineFormal, List.map_map]
      exact (haveValues_map fun child hmem => (hchild child hmem).1).sum
    | parallel =>
      refine ⟨?_, fun h => absurd rfl h⟩
      have hany : (children.map (expression e)).any Expr.isZero =
          (children.map (formal short leaf)).any Prod.fst := by
        rw [List.any_map, List.any_map, Bool.eq_iff_iff, List.any_eq_true, List.any_eq_true]
        refine exists_congr fun child => and_congr_right fun hmem => ?_
        have hkind := (alternating_branch.mp halternating child hmem).1
        rw [Function.comp_apply, Function.comp_apply, (hchild child hmem).2 hkind]
      rw [Expr.combine, Expr.parallel, hany, combineFormal]
      by_cases hzero : (children.map (formal short leaf)).any Prod.fst = true
      · rw [if_pos hzero, if_pos hzero]
        exact hasValue_number 0
      · rw [if_neg hzero, if_neg hzero, List.map_map, List.map_map]
        exact hasValue_recip
          (haveValues_map fun child hmem => hasValue_recip (hchild child hmem).1).sum

theorem formal_fst {node : Node α} :
    (node.formal short leaf).1 = true ↔ ∃ a, node = .leaf a ∧ short a = true := by
  cases node with
  | leaf a =>
    constructor
    · exact fun h => ⟨a, rfl, h⟩
    · rintro ⟨a', ha, h⟩
      cases ha
      exact h
  | branch kind children =>
    rw [formal_branch]
    constructor
    · exact fun h => absurd h Bool.false_ne_true
    · rintro ⟨a, ha, -⟩
      cases ha

/-- No branch has the value zero, but the sum of their inverses is too large to be inverted. -/
def Vanishes (short : α → Bool) (leaf : α → MachineComplex) (branches : List (Node α)) : Prop :=
  (∀ branch ∈ branches, isZero (branch.formalValue short leaf) = false) ∧
    isZero (inv (sum (branches.map fun branch => inv (branch.formalValue short leaf)))) = true

/-- When the expression of a parallel connection is zero. -/
theorem isZero_formalValue_parallel {children : List (Node α)} :
    isZero ((branch .parallel children).formalValue short leaf) = true ↔
      (∃ a, .leaf a ∈ children ∧ short a = true) ∨ Vanishes short leaf children := by
  have hshort : (children.map (formal short leaf)).any Prod.fst = true ↔
      ∃ a, .leaf a ∈ children ∧ short a = true := by
    rw [List.any_map, List.any_eq_true]
    constructor
    · rintro ⟨child, hmem, hfst⟩
      obtain ⟨a, rfl, ha⟩ := formal_fst.mp hfst
      exact ⟨a, hmem, ha⟩
    · rintro ⟨a, hmem, ha⟩
      exact ⟨_, hmem, formal_fst.mpr ⟨a, rfl, ha⟩⟩
  rw [formalValue, formal_branch, combineFormal, ← hshort]
  by_cases hzero : (children.map (formal short leaf)).any Prod.fst = true
  · rw [if_pos hzero]
    exact ⟨fun _ => .inl hzero, fun _ => MachineComplex.isZero_zero⟩
  · rw [if_neg hzero, List.map_map]
    constructor
    · intro h
      refine .inr ⟨fun child hmem => ?_, h⟩
      rw [Bool.eq_false_iff]
      intro hchild
      have hany : (children.map (formalValue short leaf)).any isZero = true := by
        rw [List.any_map]
        exact List.any_eq_true.mpr ⟨child, hmem, hchild⟩
      have hfalse := MachineComplex.isZero_inv_sum_inv_eq_false hany
      rw [List.map_map] at hfalse
      exact Bool.false_ne_true (hfalse.symm.trans h)
    · rintro (h | ⟨-, h⟩)
      · exact absurd h hzero
      · exact h

end Node

namespace Circuit

/-- The symbols of a circuit's parameters, one for each parameter of each element. -/
def parameterNames (c : Circuit) : List String :=
  (c.elements.flatMap parameterSymbols).map Prod.fst

theorem parameterSymbol_ne_frequencySymbol (e : Element) (name : String) :
    e.parameterSymbol name ≠ frequencySymbol := by
  intro h
  have hmem : '_' ∈ (e.parameterSymbol name).toList := by
    simp [Element.parameterSymbol]
  rw [h] at hmem
  exact absurd hmem (by decide)

/-- If no two parameters share a symbol, each symbol is bound to the value of its parameter. -/
theorem bindings_parameterSymbol {c : Circuit} (hdistinct : c.parameterNames.Nodup) {e : Element}
    (he : e ∈ c.elements) {p : Parameter} (hp : p ∈ e.parameters) :
    c.bindings (e.parameterSymbol p.name) = some (number p.value : MachineComplex) := by
  have hmem : (e.parameterSymbol p.name, p.value) ∈ c.elements.flatMap parameterSymbols :=
    List.mem_flatMap.mpr ⟨e, he, List.mem_map_of_mem hp⟩
  have hfind := SymbolTable.find?_ofList hdistinct hmem
  rw [bindings, symbolValues, hfind]
  rfl

/-- Where a branch of a parallel connection has the impedance zero, so has the connection. Its
    expression with numbers is zero exactly if a branch is a resistor with the value zero or the
    sum of inverses is too large, and its expression with symbols only in the latter case. -/
theorem isZero_routes_iff {text : String} {c : Circuit} (hparse : parse text = .ok c)
    (hdistinct : c.parameterNames.Nodup) {d : Connection Element} (hd : d ∈ c.connections)
    (hkind : d.kind = .parallel) {f : MachineReal}
    (hshort : ∃ branch ∈ d.children,
      isZero (branch.impedance (fun e => e.impedance f) : MachineComplex) = true) :
    (d.impedance f : MachineComplex) = zero ∧
      (∃ z : MachineComplex, (d.expression { substitute := true }).evaluateAt "f" f = .ok z ∧
        (isZero z = true ↔ (∃ e, .leaf e ∈ d.children ∧ e.isZeroResistor = true) ∨
          Node.Vanishes Element.isZeroResistor (fun e => e.expressionValue f) d.children)) ∧
      (∃ z : MachineComplex,
        (d.expression {}).evaluate (Expr.bind "f" (ofReal f) c.bindings) = .ok z ∧
        (isZero z = true ↔
          Node.Vanishes (fun _ => false) (fun e => e.expressionValue f) d.children)) := by
  obtain ⟨kind, children⟩ := d
  obtain rfl : kind = .parallel := hkind
  have hmem : ⟨.parallel, children⟩ ∈ c.root.toNode.connections := hd
  have halternating := (alternating_of_parse hparse).of_mem hmem
  have hleaves : ∀ e ∈ (Node.branch .parallel children).leaves, e ∈ c.elements :=
    fun e he => Node.leaves_subset hmem he
  refine ⟨?_, ?_, ?_⟩
  · obtain ⟨branch, hbranch, hzero⟩ := hshort
    have hany : (children.map (Node.impedance fun e =>
        (e.impedance f : MachineComplex))).any isZero = true := by
      rw [List.any_map]
      exact List.any_eq_true.mpr ⟨branch, hbranch, hzero⟩
    rw [Connection.impedance, Connection.toNode, Node.impedance, Node.fold_branch,
      ComplexArithmetic.combine, ComplexArithmetic.parallel]
    exact if_pos hany
  · have hvalue := (Node.hasValue_formalValue halternating
      (fun e _ => e.hasValue_expressionValue f)
      (fun e _ => e.isZero_expression_substitute)).1
    exact ⟨_, hvalue, Node.isZero_formalValue_parallel⟩
  · have hf : Expr.bind frequencySymbol (ofReal f : MachineComplex) c.bindings frequencySymbol =
        some (ofReal f) := if_pos rfl
    have hsymbols : ∀ e ∈ (Node.branch .parallel children).leaves,
        HasValue (Expr.bind frequencySymbol (ofReal f) c.bindings) (e.expression {})
          (e.expressionValue f : MachineComplex) := by
      intro e he
      refine Element.hasValue_expression_symbols hf fun p hp => ?_
      rw [Expr.bind, if_neg (parameterSymbol_ne_frequencySymbol e p.name)]
      exact bindings_parameterSymbol hdistinct (hleaves e he) hp
    have hvalue := (Node.hasValue_formalValue halternating hsymbols fun e he =>
      Element.isZero_expression_symbols (wellFormed_of_parse hparse e (hleaves e he))).1
    refine ⟨_, hvalue, Node.isZero_formalValue_parallel.trans ?_⟩
    simp

/-- An inductor with the value zero in parallel with a capacitor. -/
def shortedInductor : Circuit := (parse "(L\x7bL=0\x7dC)").toOption.getD ⟨⟨.series, []⟩⟩

theorem parse_shortedInductor : parse "(L\x7bL=0\x7dC)" = .ok shortedInductor := by
  refine parse_eq_ok_getD ?_ _
  decide +kernel

/-- The connection of the inductor and the capacitor. -/
def shortedConnection : Connection Element :=
  shortedInductor.connections.get ⟨1, by decide +kernel⟩

/-- The inductor shorts the connection, but neither expression is zero. -/
theorem isZero_routes_iff_shortedInductor :
    (shortedConnection.impedance (1 : MachineReal) : MachineComplex) = zero ∧
      (∃ z : MachineComplex,
        (shortedConnection.expression { substitute := true }).evaluateAt "f" 1 = .ok z ∧
        isZero z = false) ∧
      ∃ z : MachineComplex,
        (shortedConnection.expression {}).evaluate
          (Expr.bind "f" (ofReal 1) shortedInductor.bindings) = .ok z ∧
        isZero z = false := by
  have hmem : shortedConnection ∈ shortedInductor.connections := List.get_mem _ _
  have hshort : (shortedConnection.children.any fun branch =>
      isZero (branch.impedance (fun e => e.impedance (1 : MachineReal)) : MachineComplex)) =
        true := by
    decide +kernel
  obtain ⟨hzero, ⟨z, hz, -⟩, w, hw, -⟩ := isZero_routes_iff parse_shortedInductor
    (by decide +kernel) hmem (by decide +kernel) (List.any_eq_true.mp hshort)
  have hsubstituted : ((shortedConnection.expression { substitute := true }).evaluateAt "f"
      (1 : MachineReal)).toOption.any (isZero : MachineComplex → Bool) = false := by
    decide +kernel
  have hbound : ((shortedConnection.expression {}).evaluate (Expr.bind "f" (ofReal 1)
      shortedInductor.bindings)).toOption.any (isZero : MachineComplex → Bool) = false := by
    decide +kernel
  rw [hz] at hsubstituted
  rw [hw] at hbound
  exact ⟨hzero, ⟨z, hz, hsubstituted⟩, w, hw, hbound⟩

end Circuit

end CircuitCode
