import CircuitCode.Circuit.Impedance
import CircuitCode.Proofs.Connection.Expression
import CircuitCode.Proofs.Element.Congruence

/-!
# Numbers in place of symbols

A number in the place of a symbol is no sum and no product, so it merges into none: an operation
on expressions may be done before or after numbers are put in for symbols
(`Expr.congruence_substituteAll`). A symbol becomes the first number that the table has for it.
-/

namespace CircuitCode

namespace Expr

variable (name : String) (x : Number)

theorem terms_substitute_number (e : Expr) :
    (e.substitute name (.number x)).terms =
      e.terms.map fun term => term.substitute name (.number x) := by
  cases e with
  | symbol other =>
    by_cases h : other = name
    · simp [substitute, terms, h]
    · simp [substitute, terms, h]
  | _ => simp [substitute, terms, substituteIn_eq_map]

theorem factors_substitute_number (e : Expr) :
    (e.substitute name (.number x)).factors =
      e.factors.map fun factor => factor.substitute name (.number x) := by
  cases e with
  | symbol other =>
    by_cases h : other = name
    · simp [substitute, factors, h]
    · simp [substitute, factors, h]
  | _ => simp [substitute, factors, substituteIn_eq_map]

theorem substitute_add (a b : Expr) :
    (a + b).substitute name (.number x) =
      a.substitute name (.number x) + b.substitute name (.number x) := by
  show substitute (sum (a.terms ++ b.terms)) _ _ = sum (_ ++ _)
  rw [substitute, substituteIn_eq_map, List.map_append, terms_substitute_number,
    terms_substitute_number]

theorem substitute_mul (a b : Expr) :
    (a * b).substitute name (.number x) =
      a.substitute name (.number x) * b.substitute name (.number x) := by
  show substitute (product (a.factors ++ b.factors)) _ _ = product (_ ++ _)
  rw [substitute, substituteIn_eq_map, List.map_append, factors_substitute_number,
    factors_substitute_number]

/-- Putting a number in for a symbol respects the operations in formulas. -/
theorem congruence_substitute : Congruence fun e e' => e.substitute name (.number x) = e' where
  number y := by rw [substitute]
  imaginary := by rw [substitute]
  add ha hb := by rw [substitute_add, ha, hb]
  mul ha hb := by rw [substitute_mul, ha, hb]
  power ha hb := by rw [substitute, ha, hb]
  tanh ha := by rw [substitute, ha]
  coth ha := by rw [substitute, ha]

theorem congruence_eq : Congruence fun e e' => e = e' := by
  constructor <;> intros <;> subst_vars <;> rfl

/-- Two changes of expressions respect the operations one after the other. -/
theorem Congruence.comp {f g : Expr → Expr} (hf : Congruence fun e e' => f e = e')
    (hg : Congruence fun e e' => g e = e') : Congruence fun e e' => g (f e) = e' where
  number y := by rw [hf.number, hg.number]
  imaginary := by rw [hf.imaginary, hg.imaginary]
  add ha hb := by rw [hf.add rfl rfl, hg.add ha hb]
  mul ha hb := by rw [hf.mul rfl rfl, hg.mul ha hb]
  power ha hb := by rw [hf.power rfl rfl, hg.power ha hb]
  tanh ha := by rw [hf.tanh rfl, hg.tanh ha]
  coth ha := by rw [hf.coth rfl, hg.coth ha]

variable (table : SymbolTable Number)

theorem substituteAll_cons (e : Expr) (entry : String × Number) :
    e.substituteAll (entry :: table) =
      (e.substitute entry.1 (.number entry.2)).substituteAll table := rfl

/-- So does putting numbers in for the symbols of a table. -/
theorem congruence_substituteAll : Congruence fun e e' => e.substituteAll table = e' := by
  induction table with
  | nil => exact congruence_eq
  | cons entry table ih => exact (congruence_substitute entry.1 entry.2).comp ih

theorem substituteAll_sum (es : List Expr) :
    (sum es).substituteAll table = sum (es.map fun e => e.substituteAll table) := by
  induction table generalizing es with
  | nil => simp [substituteAll]
  | cons entry table ih =>
    rw [substituteAll_cons, substitute, substituteIn_eq_map, ih, List.map_map]
    rfl

theorem substituteAll_join (kind : ConnectionKind) (es : List Expr) :
    (join kind es).substituteAll table = join kind (es.map fun e => e.substituteAll table) := by
  cases kind with
  | series => exact substituteAll_sum table es
  | parallel =>
    have hrecip (e : Expr) : e.recip.substituteAll table = (e.substituteAll table).recip :=
      (congruence_substituteAll table).recip rfl
    rw [join, join, hrecip, substituteAll_sum, List.map_map, List.map_map]
    simp only [Function.comp_def, hrecip]

/-- A symbol becomes the number that the table finds first, and stays if it finds none. -/
theorem substituteAll_symbol :
    (symbol name).substituteAll table = (table.find? name).elim (symbol name) number := by
  induction table with
  | nil => rfl
  | cons entry table ih =>
    rw [substituteAll_cons, substitute, SymbolTable.find?_cons]
    by_cases h : name = entry.1
    · rw [if_pos h, if_pos h.symm, (congruence_substituteAll table).number]
      rfl
    · rw [if_neg h, if_neg (Ne.symm h), ih]

end Expr

theorem Node.substituteAll_fold_join {α : Type} (e : α → Expr) (table : SymbolTable Number)
    (node : Node α) :
    (node.fold e .join).substituteAll table =
      node.fold (fun a => (e a).substituteAll table) .join := by
  induction node using Node.induction with
  | leaf a => rfl
  | branch kind children ih =>
    rw [fold_branch, fold_branch, Expr.substituteAll_join, List.map_map]
    exact congrArg _ (List.map_congr_left ih)

end CircuitCode
