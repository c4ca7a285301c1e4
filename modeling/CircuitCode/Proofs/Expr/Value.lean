import CircuitCode.Expr.Evaluation
import CircuitCode.Proofs.Complex.Exact

/-!
# Values of expressions

`Expr.HasValue bindings e z` says that an expression evaluates to `z`. There is one lemma for each
form of expression that holds in every arithmetic; the rest is about exact arithmetic.
-/

namespace CircuitCode

namespace Expr

open ComplexArithmetic

variable {R C : Type} [ComplexArithmetic R C] {bindings : String → Option C}

attribute [local simp] evaluate evaluateAll

/-- The expression evaluates to the number. -/
def HasValue (bindings : String → Option C) (e : Expr) (z : C) : Prop :=
  e.evaluate bindings = .ok z

/-- The expressions evaluate to the numbers, one by one. -/
def HaveValues (bindings : String → Option C) (es : List Expr) (zs : List C) : Prop :=
  evaluateAll bindings es = .ok zs

theorem haveValues_nil : HaveValues bindings [] [] := by
  rw [HaveValues, evaluateAll]

theorem HaveValues.cons {e : Expr} {es : List Expr} {z : C} {zs : List C}
    (h : HasValue bindings e z) (hs : HaveValues bindings es zs) :
    HaveValues bindings (e :: es) (z :: zs) := by
  rw [HasValue] at h
  rw [HaveValues] at hs
  rw [HaveValues, evaluateAll, h, hs]
  rfl

theorem HasValue.singleton {e : Expr} {z : C} (h : HasValue bindings e z) :
    HaveValues bindings [e] [z] :=
  .cons h haveValues_nil

theorem HaveValues.append {es es' : List Expr} {zs zs' : List C} (h : HaveValues bindings es zs)
    (h' : HaveValues bindings es' zs') : HaveValues bindings (es ++ es') (zs ++ zs') := by
  induction es generalizing zs with
  | nil =>
    rw [HaveValues, evaluateAll] at h
    cases h
    exact h'
  | cons e es ih =>
    rw [HaveValues, evaluateAll] at h
    cases hz : e.evaluate bindings with
    | error cause =>
      rw [hz] at h
      cases h
    | ok z =>
      cases hzs : evaluateAll bindings es with
      | error cause =>
        rw [hz, hzs] at h
        cases h
      | ok rest =>
        rw [hz, hzs] at h
        cases h
        exact (ih hzs).cons hz

theorem haveValues_map {α : Type} {as : List α} {f : α → Expr} {g : α → C}
    (h : ∀ a ∈ as, HasValue bindings (f a) (g a)) :
    HaveValues bindings (as.map f) (as.map g) := by
  induction as with
  | nil => exact haveValues_nil
  | cons a as ih =>
    exact .cons (h a List.mem_cons_self) (ih fun a' hmem => h a' (List.mem_cons_of_mem _ hmem))

theorem hasValue_number (x : Number) :
    HasValue bindings (.number x) (ComplexArithmetic.number x) := by
  rw [HasValue, evaluate]

theorem hasValue_imaginary : HasValue bindings .imaginary ComplexArithmetic.imaginary := by
  rw [HasValue, evaluate]

theorem hasValue_symbol {name : String} {z : C} (h : bindings name = some z) :
    HasValue bindings (.symbol name) z := by
  rw [HasValue, evaluate, h]

theorem HaveValues.sum {es : List Expr} {zs : List C} (h : HaveValues bindings es zs) :
    HasValue bindings (.sum es) (ComplexArithmetic.sum zs) := by
  rw [HaveValues] at h
  rw [HasValue, evaluate, h]
  rfl

theorem HaveValues.product {es : List Expr} {zs : List C} (h : HaveValues bindings es zs) :
    HasValue bindings (.product es) (ComplexArithmetic.product zs) := by
  rw [HaveValues] at h
  rw [HasValue, evaluate, h]
  rfl

theorem HasValue.power {base exponent : Expr} {z w : C} (h : HasValue bindings base z)
    (h' : HasValue bindings exponent w) :
    HasValue bindings (.power base exponent) (ComplexArithmetic.power z w) := by
  rw [HasValue] at h h'
  rw [HasValue, evaluate, h, h']
  rfl

theorem HasValue.tanh {e : Expr} {z : C} (h : HasValue bindings e z) :
    HasValue bindings (.tanh e) (ComplexArithmetic.tanh z) := by
  rw [HasValue] at h
  rw [HasValue, evaluate, h]
  rfl

theorem HasValue.coth {e : Expr} {z : C} (h : HasValue bindings e z) :
    HasValue bindings (.coth e) (ComplexArithmetic.coth z) := by
  rw [HasValue] at h
  rw [HasValue, evaluate, h]
  rfl

theorem hasValue_sum_iff {es : List Expr} {z : C} :
    HasValue bindings (.sum es) z ↔
      ∃ zs, HaveValues bindings es zs ∧ ComplexArithmetic.sum zs = z := by
  constructor
  · intro h
    rw [HasValue, evaluate] at h
    cases hzs : evaluateAll bindings es with
    | error cause =>
      rw [hzs] at h
      cases h
    | ok zs =>
      rw [hzs] at h
      exact ⟨zs, hzs, Except.ok.inj h⟩
  · rintro ⟨zs, hzs, rfl⟩
    exact hzs.sum

theorem hasValue_product_iff {es : List Expr} {z : C} :
    HasValue bindings (.product es) z ↔
      ∃ zs, HaveValues bindings es zs ∧ ComplexArithmetic.product zs = z := by
  constructor
  · intro h
    rw [HasValue, evaluate] at h
    cases hzs : evaluateAll bindings es with
    | error cause =>
      rw [hzs] at h
      cases h
    | ok zs =>
      rw [hzs] at h
      exact ⟨zs, hzs, Except.ok.inj h⟩
  · rintro ⟨zs, hzs, rfl⟩
    exact hzs.product

section Exact

open ExactArithmetic

variable [Field R] [LinearOrder R] [Field C] [Algebra R C] [ExactArithmetic R C]

/-- An expression has the value that its terms add up to. -/
theorem HasValue.terms {e : Expr} {z : C} (h : HasValue bindings e z) :
    ∃ zs, HaveValues bindings e.terms zs ∧ zs.sum = z := by
  have hsingleton : ∃ zs, HaveValues bindings [e] zs ∧ zs.sum = z :=
    ⟨[z], h.singleton, List.sum_singleton⟩
  cases e with
  | sum es =>
    obtain ⟨zs, hzs, hsum⟩ := hasValue_sum_iff.mp h
    exact ⟨zs, hzs, by rw [← sum_eq, hsum]⟩
  | _ => exact hsingleton

/-- It does not matter that sums are merged. -/
theorem HasValue.add {e e' : Expr} {z z' : C} (h : HasValue bindings e z)
    (h' : HasValue bindings e' z') : HasValue bindings (e + e') (z + z') := by
  obtain ⟨zs, hzs, rfl⟩ := h.terms
  obtain ⟨zs', hzs', rfl⟩ := h'.terms
  have := (hzs.append hzs').sum
  rwa [sum_eq, List.sum_append] at this

theorem HasValue.number (x : Number) :
    HasValue bindings (.number x) (algebraMap R C (ofNumber C x)) := by
  rw [← number_eq]
  exact hasValue_number x

/-- The literal zero has the value zero. -/
theorem HasValue.eq_zero {e : Expr} {z : C} (h : HasValue bindings e z) (hzero : e.isZero = true) :
    z = 0 := by
  cases e with
  | number x =>
    have hx : HasValue bindings (.number x) (algebraMap R C (ofNumber C x)) := .number x
    have hz := hx.symm.trans h
    rw [ofNumber_eq_zero hzero, map_zero] at hz
    exact (Except.ok.inj hz).symm
  | _ => cases hzero

theorem HasValue.addTo {e : Expr} {z : C} (h : HasValue bindings e z) (x : Number) :
    HasValue bindings (.number x + e) (ComplexArithmetic.addTo (ofNumber C x) z) := by
  rw [addTo_eq]
  exact (HasValue.number x).add h

variable [IsStrictOrderedRing R]

/-- An expression has the value of the product of its factors. -/
theorem HasValue.factors {e : Expr} {z : C} (h : HasValue bindings e z) :
    ∃ zs, HaveValues bindings e.factors zs ∧ zs.prod = z := by
  have hsingleton : ∃ zs, HaveValues bindings [e] zs ∧ zs.prod = z :=
    ⟨[z], h.singleton, List.prod_singleton⟩
  cases e with
  | product es =>
    obtain ⟨zs, hzs, hprod⟩ := hasValue_product_iff.mp h
    exact ⟨zs, hzs, by rw [← product_eq, hprod]⟩
  | _ => exact hsingleton

/-- It does not matter that products are merged. -/
theorem HasValue.mul {e e' : Expr} {z z' : C} (h : HasValue bindings e z)
    (h' : HasValue bindings e' z') : HasValue bindings (e * e') (z * z') := by
  obtain ⟨zs, hzs, rfl⟩ := h.factors
  obtain ⟨zs', hzs', rfl⟩ := h'.factors
  have := (hzs.append hzs').product
  rwa [product_eq, List.prod_append] at this

theorem HasValue.scale {e : Expr} {z : C} (h : HasValue bindings e z) (x : Number) :
    HasValue bindings (e * .number x) (ComplexArithmetic.scale z (ofNumber C x)) := by
  rw [scale_eq]
  exact h.mul (.number x)

theorem HasValue.scale_left {e : Expr} {z : C} (h : HasValue bindings e z) (x : Number) :
    HasValue bindings (.number x * e) (ComplexArithmetic.scale z (ofNumber C x)) := by
  rw [scale_eq, mul_comm]
  exact (HasValue.number x).mul h

/-- A power whose exponent is a number. -/
theorem HasValue.powReal {e : Expr} {z : C} (h : HasValue bindings e z) (x : Number) :
    HasValue bindings (.power e (.number x)) (ComplexArithmetic.powReal z (ofNumber C x)) := by
  rw [← power_number]
  exact h.power (hasValue_number x)

theorem HasValue.recip {e : Expr} {z : C} (h : HasValue bindings e z) :
    HasValue bindings e.recip (inv z) := by
  have := h.powReal (-1)
  rwa [ofNumber_neg_one, powReal_neg_one] at this

theorem HasValue.sqrt {e : Expr} {z : C} (h : HasValue bindings e z) :
    HasValue bindings e.sqrt (ComplexArithmetic.sqrt z) := by
  have := h.powReal 0.5
  rwa [ofNumber_half, powReal_half] at this

theorem HasValue.div {e e' : Expr} {z z' : C} (h : HasValue bindings e z)
    (h' : HasValue bindings e' z') (hz' : z' ≠ 0) : HasValue bindings (e / e') (z / z') := by
  have := h.mul h'.recip
  rwa [inv_eq hz', ← div_eq_mul_inv] at this

theorem HasValue.divide {e e' : Expr} {z z' : C} (h : HasValue bindings e z)
    (h' : HasValue bindings e' z') (hz' : z' ≠ 0) :
    HasValue bindings (e / e') (ComplexArithmetic.div z z') := by
  rw [div_eq z hz']
  exact h.div h' hz'

theorem HasValue.divInto {e : Expr} {z : C} (h : HasValue bindings e z) (x : Number)
    (hz : z ≠ 0) :
    HasValue bindings (.number x / e) (ComplexArithmetic.divInto (ofNumber C x) z) := by
  rw [divInto_eq _ hz]
  exact (HasValue.number x).div h hz

end Exact

end Expr

end CircuitCode
