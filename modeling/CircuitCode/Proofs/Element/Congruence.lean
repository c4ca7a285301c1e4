import CircuitCode.Element.Formula
import CircuitCode.Proofs.Expr.Value

/-!
# Formulas respect relations between expressions

The expression of an element is made of its operands and the term `jω` by sums, products, powers
and the two hyperbolic functions. So a relation between expressions that these respect holds
between two expressions of a kind if it holds between their operands. `Expr.Alike` is such a
relation: two expressions have the same value, each under its own assignment.
-/

namespace CircuitCode

namespace Expr

/-- A relation that the operations in formulas respect. -/
structure Congruence (rel : Expr → Expr → Prop) : Prop where
  number (x : Number) : rel (.number x) (.number x)
  imaginary : rel .imaginary .imaginary
  add {a a' b b' : Expr} (ha : rel a a') (hb : rel b b') : rel (a + b) (a' + b')
  mul {a a' b b' : Expr} (ha : rel a a') (hb : rel b b') : rel (a * b) (a' * b')
  power {a a' b b' : Expr} (ha : rel a a') (hb : rel b b') : rel (.power a b) (.power a' b')
  tanh {a a' : Expr} (ha : rel a a') : rel (.tanh a) (.tanh a')
  coth {a a' : Expr} (ha : rel a a') : rel (.coth a) (.coth a')

namespace Congruence

variable {rel : Expr → Expr → Prop} {a a' b b' : Expr}

theorem recip (h : Congruence rel) (ha : rel a a') : rel a.recip a'.recip :=
  h.power ha (h.number _)

theorem sqrt (h : Congruence rel) (ha : rel a a') : rel a.sqrt a'.sqrt :=
  h.power ha (h.number _)

theorem div (h : Congruence rel) (ha : rel a a') (hb : rel b b') : rel (a / b) (a' / b') :=
  h.mul ha (h.recip hb)

end Congruence

end Expr

/-- The expressions of a kind are related if their operands are. -/
theorem ElementKind.rel_expression {rel : Expr → Expr → Prop} (h : Expr.Congruence rel)
    {kind : ElementKind} {p p' : Nat → Expr} {jω jω' : Expr} (hp : ∀ i, rel (p i) (p' i))
    (hjω : rel jω jω') : rel (kind.expression p jω) (kind.expression p' jω') := by
  have hscaled := h.power (h.mul (hp 1) hjω) (hp 2)
  have hshifted := h.power (h.add (h.number 1) (h.power (h.mul hjω (hp 1)) (hp 2))) (hp 3)
  cases kind with
  | resistor => exact hp 0
  | capacitor => exact h.recip (h.mul (hp 0) hjω)
  | inductor => exact h.mul (hp 0) hjω
  | modifiedInductor => exact h.mul (hp 0) (h.power hjω (hp 1))
  | constantPhase => exact h.recip (h.mul (hp 0) (h.power hjω (hp 1)))
  | warburg => exact h.recip (h.mul (hp 0) (h.sqrt hjω))
  | warburgShort => exact h.div (h.tanh hscaled) (h.mul (hp 0) (h.power hjω (hp 2)))
  | warburgOpen => exact h.div (h.coth hscaled) (h.mul (hp 0) (h.power hjω (hp 2)))
  | deLevie =>
    have hroot := h.sqrt (h.add (h.number 1) (h.mul (hp 2) (h.power hjω (hp 3))))
    have hratio := h.sqrt (h.div (hp 0) (hp 1))
    have hmean := h.sqrt (h.mul (hp 0) (hp 1))
    exact h.div (h.mul hmean (h.coth (h.mul (h.mul (hp 4) hratio) hroot))) hroot
  | gerischer => exact h.recip (h.mul (hp 0) (h.power (h.add (hp 1) hjω) (hp 2)))
  | havriliakNegami => exact h.div hshifted (h.mul hjω (hp 0))
  | havriliakNegamiAlternative => exact h.div (hp 0) hshifted
  | kramersKronig => exact h.div (hp 0) (h.add (h.number 1) (h.mul hjω (hp 1)))

/-- The expressions of an element under two options are related if those of its parameters and
    the symbols of the frequency are. -/
theorem Element.rel_expression {rel : Expr → Expr → Prop} (h : Expr.Congruence rel) {e : Element}
    {options options' : ExpressionOptions}
    (hoperand : ∀ p ∈ e.parameters, rel (e.operand options p) (e.operand options' p))
    (hfrequency : rel (.symbol options.frequency) (.symbol options'.frequency)) :
    rel (e.expression options) (e.expression options') := by
  unfold Element.expression
  refine ElementKind.rel_expression h (fun i => ?_)
    (h.mul (h.mul h.imaginary (h.number _)) hfrequency)
  rw [List.getD_eq_getElem?_getD, List.getD_eq_getElem?_getD, List.getElem?_map,
    List.getElem?_map]
  cases hi : e.parameters[i]? with
  | none => exact h.number 0
  | some p => exact hoperand p (List.mem_of_getElem? hi)

namespace Element

/-- The value of the parameter at a position in the kind's definition. -/
def valueAt (e : Element) (i : Nat) : Number := (e.parameters.map fun p => p.value).getD i 0

theorem operand_of_substitute {e : Element} {options : ExpressionOptions}
    (h : options.substitute = true) (i : Nat) :
    (e.parameters.map (e.operand options)).getD i (.number 0) = .number (e.valueAt i) := by
  have hoperand : e.operand options = fun p => .number p.value := by
    funext p
    rw [operand, if_pos h]
  rw [hoperand, valueAt, List.getD_eq_getElem?_getD, List.getD_eq_getElem?_getD, List.getElem?_map,
    List.getElem?_map]
  cases e.parameters[i]? <;> rfl

end Element

namespace Expr

open ComplexArithmetic

variable {R C : Type} [ComplexArithmetic R C] {bindings bindings' : String → Option C}

/-- Two expressions have the same value, each under its own assignment, and so have the operands
    that they contribute to a sum or a product. -/
structure Alike (bindings bindings' : String → Option C) (e e' : Expr) : Prop where
  value : ∃ z, HasValue bindings e z ∧ HasValue bindings' e' z
  terms : ∃ zs, HaveValues bindings e.terms zs ∧ HaveValues bindings' e'.terms zs
  factors : ∃ zs, HaveValues bindings e.factors zs ∧ HaveValues bindings' e'.factors zs

/-- Expressions that are neither sums nor products. -/
theorem Alike.of_hasValue {e e' : Expr} {z : C} (h : HasValue bindings e z)
    (h' : HasValue bindings' e' z) (hterms : e.terms = [e]) (hterms' : e'.terms = [e'])
    (hfactors : e.factors = [e]) (hfactors' : e'.factors = [e']) :
    Alike bindings bindings' e e' := by
  refine ⟨⟨z, h, h'⟩, ⟨[z], ?_, ?_⟩, ⟨[z], ?_, ?_⟩⟩
  · rw [hterms]
    exact h.singleton
  · rw [hterms']
    exact h'.singleton
  · rw [hfactors]
    exact h.singleton
  · rw [hfactors']
    exact h'.singleton

theorem alike_congruence : Congruence (Alike bindings bindings') where
  number x := .of_hasValue (hasValue_number x) (hasValue_number x) rfl rfl rfl rfl
  imaginary := .of_hasValue hasValue_imaginary hasValue_imaginary rfl rfl rfl rfl
  add {a a' b b'} ha hb := by
    obtain ⟨zs, hzs, hzs'⟩ := ha.terms
    obtain ⟨ws, hws, hws'⟩ := hb.terms
    have hsum := (hzs.append hws).sum
    have hsum' := (hzs'.append hws').sum
    exact ⟨⟨_, hsum, hsum'⟩, ⟨_, hzs.append hws, hzs'.append hws'⟩,
      ⟨_, hsum.singleton, hsum'.singleton⟩⟩
  mul {a a' b b'} ha hb := by
    obtain ⟨zs, hzs, hzs'⟩ := ha.factors
    obtain ⟨ws, hws, hws'⟩ := hb.factors
    have hproduct := (hzs.append hws).product
    have hproduct' := (hzs'.append hws').product
    exact ⟨⟨_, hproduct, hproduct'⟩, ⟨_, hproduct.singleton, hproduct'.singleton⟩,
      ⟨_, hzs.append hws, hzs'.append hws'⟩⟩
  power {a a' b b'} ha hb := by
    obtain ⟨z, hz, hz'⟩ := ha.value
    obtain ⟨w, hw, hw'⟩ := hb.value
    exact .of_hasValue (hz.power hw) (hz'.power hw') rfl rfl rfl rfl
  tanh {a a'} ha := by
    obtain ⟨z, hz, hz'⟩ := ha.value
    exact .of_hasValue hz.tanh hz'.tanh rfl rfl rfl rfl
  coth {a a'} ha := by
    obtain ⟨z, hz, hz'⟩ := ha.value
    exact .of_hasValue hz.coth hz'.coth rfl rfl rfl rfl

end Expr

end CircuitCode
