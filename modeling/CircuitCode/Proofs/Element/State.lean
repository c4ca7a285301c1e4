import Mathlib.Data.List.Nodup
import CircuitCode.Element.Basic

/-!
# States of an element

Which changes of an element succeed and what they leave. `Element.WellFormed` is what every state
of an element satisfies: the parameters are those of the kind, in order, each value lies between
its limits, and a label can be written in a parameter block.
-/

namespace CircuitCode

namespace Number

theorem not_lt_iff {a b : Number} (ha : a.isNaN = false) (hb : b.isNaN = false) :
    ¬ a < b ↔ b ≤ a := by
  simp [lt_iff, le_iff, ha, hb]

end Number

/-- A value is accepted exactly when it lies between its limits; nothing lies between limits that
    are not numbers. -/
theorem checkRange_eq_ok_iff {name : String} {value lower upper : Number} :
    checkRange name value lower upper = .ok () ↔ lower ≤ value ∧ value ≤ upper := by
  unfold checkRange
  by_cases hnan : value.isNaN || lower.isNaN || upper.isNaN
  · rw [if_pos hnan]
    simp only [Bool.or_eq_true] at hnan
    simp only [reduceCtorEq, false_iff, Number.le_iff]
    rintro ⟨⟨hl, hv, -⟩, -, hu, -⟩
    simp [hl, hv, hu] at hnan
  · rw [if_neg hnan]
    simp only [Bool.or_eq_true, not_or, Bool.not_eq_true] at hnan
    obtain ⟨⟨hv, hl⟩, hu⟩ := hnan
    rw [← Number.not_lt_iff hv hl, ← Number.not_lt_iff hu hv]
    by_cases hlimits : upper < lower
    · rw [if_pos hlimits]
      simp only [Number.lt_iff, hv, hl, hu, true_and] at hlimits ⊢
      simp only [reduceCtorEq, false_iff]
      omega
    · rw [if_neg hlimits]
      split
      · simp_all
      · split <;> simp_all

/-- Where names are not repeated, a search by name finds exactly what has the name. -/
theorem find?_eq_some_iff_of_nodup {α : Type} {nameOf : α → String} {as : List α}
    (h : (as.map nameOf).Nodup) {name : String} {a : α} :
    (as.find? fun b => nameOf b == name) = some a ↔ a ∈ as ∧ nameOf a = name := by
  constructor
  · intro hfind
    exact ⟨List.mem_of_find?_eq_some hfind, by simpa using List.find?_some hfind⟩
  · rintro ⟨hmem, rfl⟩
    cases hfind : as.find? fun b => nameOf b == nameOf a with
    | none => simpa using List.find?_eq_none.mp hfind a hmem
    | some b =>
      have hname : nameOf b = nameOf a := by simpa using List.find?_some hfind
      rw [List.inj_on_of_nodup_map h (List.mem_of_find?_eq_some hfind) hmem hname]

/-- Writing back what a search has found changes nothing. -/
theorem set_findIdx_of_find? {α : Type} {found : α → Bool} {as : List α} {a : α}
    (h : as.find? found = some a) : as.set (as.findIdx found) a = as := by
  induction as with
  | nil => rfl
  | cons b as ih =>
    rw [List.findIdx_cons]
    cases hb : found b with
    | true =>
      rw [List.find?_cons_of_pos hb] at h
      rw [Option.some.inj h]
      rfl
    | false =>
      rw [List.find?_cons_of_neg (by simp [hb])] at h
      exact congrArg (List.cons b) (ih h)

/-- Where names are not repeated, what is written back replaces whatever has the name. -/
theorem set_findIdx_eq_map {α : Type} {nameOf : α → String} {as : List α}
    (hnodup : (as.map nameOf).Nodup) (name : String) (b : α) :
    as.set (as.findIdx fun a => nameOf a == name) b =
      as.map fun a => if nameOf a = name then b else a := by
  induction as with
  | nil => rfl
  | cons a as ih =>
    rw [List.map_cons, List.nodup_cons] at hnodup
    obtain ⟨hnew, hnodup⟩ := hnodup
    rw [List.findIdx_cons, List.map_cons]
    by_cases ha : nameOf a = name
    · have hothers : (as.map fun a => if nameOf a = name then b else a) = as := by
        refine (List.map_congr_left fun c hc => if_neg ?_).trans (List.map_id as)
        rintro rfl
        exact hnew (ha ▸ List.mem_map_of_mem hc)
      rw [if_pos ha, hothers, beq_iff_eq.mpr ha]
      rfl
    · rw [if_neg ha, ← ih hnodup, beq_eq_false_iff_ne.mpr ha]
      rfl

namespace Parameter

/-- The value lies between the limits, and none of the three fails to be a number. -/
def Ordered (p : Parameter) : Prop := p.lower ≤ p.value ∧ p.value ≤ p.upper

variable {p new q : Parameter}

/-- A parameter is replaced if what is given is in order. If not, it is left as it is. -/
theorem replace_cases (p new : Parameter) :
    p.replace new = (new, .ok ()) ∧ new.Ordered ∨
      ∃ cause, p.replace new = (p, .error cause) ∧ ¬ new.Ordered ∧
        checkRange p.name new.value new.lower new.upper = .error cause := by
  rw [Ordered, ← @checkRange_eq_ok_iff p.name]
  unfold replace
  cases checkRange p.name new.value new.lower new.upper with
  | ok u => exact .inl ⟨rfl, rfl⟩
  | error cause => exact .inr ⟨cause, rfl, nofun, rfl⟩

theorem replace_eq_ok_iff : p.replace new = (q, .ok ()) ↔ new.Ordered ∧ new = q := by
  rcases replace_cases p new with ⟨h, hordered⟩ | ⟨cause, h, hdisordered, -⟩
  · simp [h, hordered]
  · simp [h, hdisordered]

end Parameter

namespace ElementKind

theorem nodup_names (kind : ElementKind) :
    (kind.parameters.map ParameterDefinition.name).Nodup := by
  cases kind <;> decide

/-- A kind is known from its symbol. -/
theorem ofSymbol?_symbol (kind : ElementKind) : ofSymbol? kind.symbol = some kind := by
  cases kind <;> decide

/-- The defaults of every kind keep the defaults' own limits. -/
theorem ordered_instantiate (kind : ElementKind) :
    ∀ d ∈ kind.parameters, d.instantiate.Ordered := by
  unfold Parameter.Ordered
  cases kind <;> decide +kernel

theorem parameter?_eq_some_iff {kind : ElementKind} {name : String} {d : ParameterDefinition} :
    kind.parameter? name = some d ↔ d ∈ kind.parameters ∧ d.name = name :=
  find?_eq_some_iff_of_nodup kind.nodup_names

end ElementKind

namespace Element

/-- What every state of an element satisfies. -/
structure WellFormed (e : Element) : Prop where
  names : e.parameters.map Parameter.name = e.kind.parameters.map ParameterDefinition.name
  ordered : ∀ p ∈ e.parameters, p.Ordered
  label : ∀ text, e.label = some text → text ≠ "" ∧ isLabel text = true

theorem WellFormed.nodup_names {e : Element} (he : e.WellFormed) :
    (e.parameters.map Parameter.name).Nodup := by
  rw [he.names]
  exact e.kind.nodup_names

section Update

variable {e e' : Element} {name : String} {p : Parameter}
  {f : Parameter → Parameter × Except ElementError Unit}

theorem parameter_eq_ok_iff :
    e.parameter name = .ok p ↔ (e.parameters.find? fun p => p.name == name) = some p := by
  unfold parameter
  cases e.parameters.find? fun p => p.name == name <;> simp

theorem mem_of_parameter (h : e.parameter name = .ok p) : p ∈ e.parameters ∧ p.name = name := by
  rw [parameter_eq_ok_iff] at h
  exact ⟨List.mem_of_find?_eq_some h, by simpa using List.find?_some h⟩

theorem parameter_eq_ok_iff_of_nodup (he : (e.parameters.map Parameter.name).Nodup) :
    e.parameter name = .ok p ↔ p ∈ e.parameters ∧ p.name = name := by
  rw [parameter_eq_ok_iff, find?_eq_some_iff_of_nodup he]

/-- Every parameter of an element is found, or one of its name. -/
theorem exists_parameter (h : name ∈ e.parameters.map Parameter.name) :
    ∃ p, e.parameter name = .ok p := by
  simp only [parameter_eq_ok_iff, ← Option.isSome_iff_exists, List.find?_isSome, beq_iff_eq]
  exact List.mem_map.mp h

theorem store_parameter (h : e.parameter name = .ok p) : e.store name p = e := by
  rw [store, set_findIdx_of_find? (parameter_eq_ok_iff.mp h)]

theorem names_store {q : Parameter} (hp : e.parameter name = .ok p) (hname : q.name = p.name) :
    (e.store name q).parameters.map Parameter.name = e.parameters.map Parameter.name := by
  have hsame := congrArg (fun e => e.parameters.map Parameter.name) (store_parameter hp)
  simp only [store, List.map_set] at hsame ⊢
  rw [hname, hsame]

theorem store_eq_of_nodup (he : (e.parameters.map Parameter.name).Nodup) :
    e.store name p =
      { e with parameters := e.parameters.map fun q => if q.name = name then p else q } := by
  rw [store, set_findIdx_eq_map he]

theorem update_of_parameter (h : e.parameter name = .ok p) :
    e.update name f = (e.store name (f p).1, (f p).2) := by
  rw [update, h]

/-- An update succeeds if there is the parameter and it can be changed. -/
theorem update_eq_ok_iff :
    e.update name f = (e', .ok ()) ↔
      ∃ p q, e.parameter name = .ok p ∧ f p = (q, .ok ()) ∧ e' = e.store name q := by
  unfold update
  cases e.parameter name with
  | error cause => simp
  | ok p =>
    rw [Prod.mk.injEq]
    constructor
    · rintro ⟨rfl, hok⟩
      exact ⟨p, (f p).1, rfl, Prod.ext rfl hok, rfl⟩
    · rintro ⟨_, q, ⟨⟩, hq, rfl⟩
      rw [hq]
      exact ⟨rfl, rfl⟩

/-- An update that fails leaves the element as it is if a change that fails leaves the parameter as
    it is. -/
theorem update_of_error {cause : ElementError}
    (hf : ∀ p cause, (f p).2 = .error cause → (f p).1 = p)
    (h : (e.update name f).2 = .error cause) : (e.update name f).1 = e := by
  unfold update at h ⊢
  cases hp : e.parameter name with
  | error cause' => rfl
  | ok p =>
    rw [hp] at h
    exact (congrArg (e.store name) (hf p cause h)).trans (store_parameter hp)

end Update

theorem accepted_eq_ok_iff {result : Element × Except ElementError Unit} {e : Element} :
    accepted result = .ok e ↔ result = (e, .ok ()) := by
  obtain ⟨e', outcome⟩ := result
  cases outcome <;> simp [accepted, Except.map]

theorem accepted_eq_error_iff {result : Element × Except ElementError Unit}
    {cause : ElementError} : accepted result = .error cause ↔ result.2 = .error cause := by
  obtain ⟨e', outcome⟩ := result
  cases outcome <;> simp [accepted, Except.map]

/-- Setting a whole parameter succeeds exactly when the element has it and the new value lies
    between the new limits. -/
theorem setParameter_eq_ok_iff {e e' : Element} {name : String} {value lower upper : Number}
    {fixed : Bool} (he : (e.parameters.map Parameter.name).Nodup) :
    e.setParameter name value lower upper fixed = .ok e' ↔
      name ∈ e.parameters.map Parameter.name ∧ lower ≤ value ∧ value ≤ upper ∧
        e' = { e with parameters := e.parameters.map fun p =>
          if p.name = name then ⟨name, value, lower, upper, fixed⟩ else p } := by
  unfold setParameter change
  rw [accepted_eq_ok_iff, update_eq_ok_iff]
  simp only [store_eq_of_nodup he, Parameter.replace_eq_ok_iff]
  constructor
  · rintro ⟨p, q, hp, ⟨⟨hlower, hupper⟩, rfl⟩, rfl⟩
    obtain ⟨hmem, rfl⟩ := mem_of_parameter hp
    exact ⟨List.mem_map_of_mem hmem, hlower, hupper, rfl⟩
  · rintro ⟨hmem, hlower, hupper, rfl⟩
    obtain ⟨p, hp⟩ := exists_parameter hmem
    obtain ⟨-, rfl⟩ := mem_of_parameter hp
    exact ⟨p, _, hp, ⟨⟨hlower, hupper⟩, rfl⟩, rfl⟩

theorem change_label (e : Element) (text : String) :
    e.change (.label text) =
      if isLabel text then ({ e with label := if text.isEmpty then none else some text }, .ok ())
      else (e, .error (.invalidLabel text)) := rfl

theorem setLabel_eq (e : Element) (text : String) :
    e.setLabel text =
      if isLabel text then .ok { e with label := if text.isEmpty then none else some text }
      else .error (.invalidLabel text) := by
  rw [setLabel, change_label]
  split <;> rfl

end Element

end CircuitCode
