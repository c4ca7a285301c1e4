import CircuitCode.Proofs.Element.Change

/-!
# Changes that are refused

A change of a parameter assigns some of its fields (`ElementChange.assign`). It is refused if the
element has no parameter of that name, if a number in it is not one, or if it would leave a value
outside its limits; a label is refused if a parameter block could not hold it
(`ElementChange.Refused`). A change that is refused leaves the element as it was, and one that is
made does no more than it says (`ElementChange.applied`), so whatever is done to a new element, it
stays in order (`Element.valid_foldl_changed`).
-/

namespace CircuitCode

/-- A text without braces and without blanks at either end. -/
structure IsPlainLabel (text : String) : Prop where
  noOpening : '\x7b' ∉ text.toList
  noClosing : '\x7d' ∉ text.toList
  noBlankFirst : ∀ c, text.toList.head? = some c → isBlank c = false
  noBlankLast : ∀ c, text.toList.getLast? = some c → isBlank c = false

theorem isPlainLabel_iff {text : String} : IsPlainLabel text ↔ Element.isLabel text = true := by
  have hany {o : Option Char} : o.any isBlank = false ↔ ∀ c, o = some c → isBlank c = false := by
    cases o <;> simp
  unfold Element.isLabel isTrimmed
  simp only [Bool.and_eq_true, Bool.not_eq_true', List.any_eq_false, Bool.or_eq_true, beq_iff_eq,
    not_or, hany]
  constructor
  · rintro ⟨hopening, hclosing, hfirst, hlast⟩
    refine ⟨?_, hfirst, hlast⟩
    intro c hc
    constructor
    · rintro rfl
      exact hopening hc
    · rintro rfl
      exact hclosing hc
  · rintro ⟨hbraces, hfirst, hlast⟩
    exact ⟨fun h => (hbraces _ h).1 rfl, fun h => (hbraces _ h).2 rfl, hfirst, hlast⟩

namespace ElementChange

/-- The numbers that are to be set. -/
def numbers : ElementChange → List Number
  | .value _ x => [x]
  | .lower _ x => [x]
  | .upper _ x => [x]
  | .fixed _ _ => []
  | .parameter _ x low high _ => [x, low, high]
  | .label _ => []

/-- What stands against a change of an element. -/
inductive Refused (e : Element) : ElementChange → Prop where
  | unknown {change : ElementChange} {name : String} (hname : change.name? = some name)
      (h : name ∉ e.parameters.map Parameter.name) : Refused e change
  | notNumber {change : ElementChange} {x : Number} (hx : x ∈ change.numbers)
      (h : x.isNaN = true) : Refused e change
  | disordered {change : ElementChange} {p : Parameter} (hp : p ∈ e.parameters)
      (hname : change.name? = some p.name) (h : ¬ (change.assign p).Ordered) : Refused e change
  | label {text : String} (h : ¬ IsPlainLabel text) : Refused e (.label text)

/-- The element after a change that is made. -/
def applied (e : Element) : ElementChange → Element
  | .label text => { e with label := if text = "" then none else some text }
  | change =>
    { e with parameters := e.parameters.map fun p =>
      if change.name? = some p.name then change.assign p else p }

end ElementChange

namespace Element

variable {e e' : Element} {change : ElementChange} {name : String}

theorem applied_of_name? (hname : change.name? = some name) :
    change.applied e = { e with parameters := e.parameters.map fun p =>
      if p.name = name then change.assign p else p } := by
  have hcondition (p : Parameter) : change.name? = some p.name ↔ p.name = name := by
    rw [hname, Option.some.injEq]
    exact eq_comm
  cases change with
  | label text => cases hname
  | _ =>
    unfold ElementChange.applied
    simp only [hcondition]

/-- To store the parameter with the fields that are to be set is what a change says. No other
    parameter has the name. -/
theorem WellFormed.store_assign (he : e.WellFormed) {p : Parameter} (hp : p ∈ e.parameters)
    (hname : change.name? = some p.name) :
    e.store p.name (change.assign p) = change.applied e := by
  rw [store_eq_of_nodup he.nodup_names, applied_of_name? hname]
  congr 1
  refine List.map_congr_left fun q hq => ?_
  by_cases hqp : q.name = p.name
  · rw [List.inj_on_of_nodup_map he.nodup_names hq hp hqp]
  · rw [if_neg hqp, if_neg hqp]

/-- When a change of a parameter is made, and what it leaves. -/
theorem change_eq_ok_iff (he : e.WellFormed) (hname : change.name? = some name) :
    e.change change = (e', .ok ()) ↔
      name ∈ e.parameters.map Parameter.name ∧
        (∀ p ∈ e.parameters, p.name = name → (change.assign p).Ordered) ∧
        e' = change.applied e := by
  rw [change_eq_update hname, update_eq_ok_iff]
  simp only [parameter_eq_ok_iff_of_nodup he.nodup_names]
  constructor
  · rintro ⟨p, q, ⟨hp, rfl⟩, hq, rfl⟩
    obtain ⟨hordered, rfl⟩ := (ElementChange.attempt_eq_ok_iff (he.ordered p hp)).mp hq
    refine ⟨List.mem_map_of_mem hp, ?_, he.store_assign hp hname⟩
    intro p' hp' hname'
    rwa [List.inj_on_of_nodup_map he.nodup_names hp' hp hname']
  · rintro ⟨hmem, hordered, rfl⟩
    obtain ⟨p, hp, rfl⟩ := List.mem_map.mp hmem
    have hattempt : change.attempt p = (change.assign p, .ok ()) :=
      (ElementChange.attempt_eq_ok_iff (he.ordered p hp)).mpr ⟨hordered p hp rfl, rfl⟩
    exact ⟨p, change.assign p, ⟨hp, rfl⟩, hattempt, (he.store_assign hp hname).symm⟩

/-- When a label is set, and what it leaves. -/
theorem change_label_eq_ok_iff {text : String} :
    e.change (.label text) = (e', .ok ()) ↔
      IsPlainLabel text ∧ e' = ElementChange.applied e (.label text) := by
  rw [isPlainLabel_iff, change_label, ElementChange.applied]
  simp only [String.isEmpty_iff]
  by_cases htext : isLabel text = true
  · rw [if_pos htext, and_iff_right htext, Prod.mk.injEq, and_iff_left rfl]
    exact eq_comm
  · simp [htext]

/-- A change that is made does what it says and nothing else. -/
theorem WellFormed.eq_applied (he : e.WellFormed) (h : e.change change = (e', .ok ())) :
    e' = change.applied e := by
  rcases change.name?_cases with ⟨name, hname⟩ | ⟨text, rfl⟩
  · exact ((change_eq_ok_iff he hname).mp h).2.2
  · exact (change_label_eq_ok_iff.mp h).2

/-- None of the numbers between the limits fails to be one. -/
theorem isNaN_of_ordered {p : Parameter} (h : p.Ordered) :
    p.value.isNaN = false ∧ p.lower.isNaN = false ∧ p.upper.isNaN = false := by
  obtain ⟨⟨hlower, hvalue, -⟩, -, hupper, -⟩ := h
  exact ⟨hvalue, hlower, hupper⟩

theorem eq_of_mem_numbers {x : Number} (hx : x ∈ change.numbers) (p : Parameter) :
    x = (change.assign p).value ∨ x = (change.assign p).lower ∨ x = (change.assign p).upper := by
  cases change with
  | value _ y => exact .inl (List.mem_singleton.mp hx)
  | lower _ y => exact .inr (.inl (List.mem_singleton.mp hx))
  | upper _ y => exact .inr (.inr (List.mem_singleton.mp hx))
  | fixed _ _ => cases hx
  | parameter _ y low high _ => simpa [ElementChange.numbers, ElementChange.assign] using hx
  | label _ => cases hx

/-- Whatever is not a number leaves no parameter in order that it is assigned to. -/
theorem not_ordered_assign {p : Parameter} {x : Number} (hx : x ∈ change.numbers)
    (hnan : x.isNaN = true) : ¬ (change.assign p).Ordered := by
  intro hordered
  obtain ⟨hvalue, hlower, hupper⟩ := isNaN_of_ordered hordered
  rcases eq_of_mem_numbers hx p with rfl | rfl | rfl
  · simp [hvalue] at hnan
  · simp [hlower] at hnan
  · simp [hupper] at hnan

/-- A change is made exactly if nothing stands against it. -/
theorem WellFormed.exists_ok_iff_not_refused (he : e.WellFormed) :
    (∃ e', e.change change = (e', .ok ())) ↔ ¬ change.Refused e := by
  rcases change.name?_cases with ⟨name, hname⟩ | ⟨text, rfl⟩
  · simp only [change_eq_ok_iff he hname]
    constructor
    · rintro ⟨e', hmem, hordered, -⟩ hrefused
      obtain ⟨p, hp, rfl⟩ := List.mem_map.mp hmem
      cases hrefused with
      | unknown hname' h =>
        obtain rfl := Option.some.inj (hname.symm.trans hname')
        exact h hmem
      | notNumber hx h => exact not_ordered_assign hx h (hordered p hp rfl)
      | disordered hp' hname' h =>
        exact h (hordered _ hp' (Option.some.inj (hname'.symm.trans hname)))
      | label h => cases hname
    · intro h
      refine ⟨_, ?_, ?_, rfl⟩
      · by_contra hunknown
        exact h (.unknown hname hunknown)
      · rintro p hp rfl
        by_contra hdisordered
        exact h (.disordered hp hname hdisordered)
  · simp only [change_label_eq_ok_iff, exists_and_left, exists_eq, and_true]
    constructor
    · intro htext hrefused
      cases hrefused with
      | unknown hname' h => cases hname'
      | notNumber hx h => cases hx
      | disordered hp hname' h => cases hname'
      | label h => exact h htext
    · intro h
      by_contra htext
      exact h (.label htext)

/-- A change fails exactly if something stands against it. -/
theorem WellFormed.exists_error_iff_refused (he : e.WellFormed) :
    (∃ cause, (e.change change).2 = .error cause) ↔ change.Refused e := by
  rw [← not_iff_not, ← he.exists_ok_iff_not_refused]
  obtain ⟨e', outcome⟩ := e.change change
  cases outcome <;> simp

/-- Whatever is done to a well-formed element, it stays well formed and of its kind. -/
theorem WellFormed.foldl_changed (he : e.WellFormed) (changes : List ElementChange) :
    (changes.foldl (fun e change => e.changed change) e).WellFormed ∧
      (changes.foldl (fun e change => e.changed change) e).kind = e.kind := by
  induction changes generalizing e with
  | nil => exact ⟨he, rfl⟩
  | cons change changes ih =>
    obtain ⟨hwell, hkind⟩ := ih (he.changed change)
    exact ⟨hwell, hkind.trans (e.kind_changed change)⟩

/-- Whatever is done to a new element, with success or without, its parameters stay those of its
    kind, in order, each value stays between its limits, all of them stay numbers, and a label is
    not empty and can be written in a parameter block. The next change fails exactly if something
    stands against it. If it fails, the element is left as it was; if not, the change does what it
    says and nothing else. -/
theorem valid_foldl_changed (kind : ElementKind) (changes : List ElementChange) :
    let e := changes.foldl (fun e change => e.changed change) (ofKind kind)
    e.kind = kind ∧
    e.parameters.map Parameter.name = kind.parameters.map ParameterDefinition.name ∧
    (∀ p ∈ e.parameters,
      (p.value.isNaN = false ∧ p.lower.isNaN = false ∧ p.upper.isNaN = false) ∧
        p.lower ≤ p.value ∧ p.value ≤ p.upper) ∧
    (∀ text, e.label = some text → text ≠ "" ∧ IsPlainLabel text) ∧
    ∀ change : ElementChange,
      ((∃ cause, (e.change change).2 = .error cause) ↔ change.Refused e) ∧
      (∀ cause, (e.change change).2 = .error cause → e.changed change = e) ∧
      ((e.change change).2 = .ok () → e.changed change = change.applied e) := by
  intro e
  obtain ⟨hwell, hkind⟩ := (wellFormed_ofKind kind).foldl_changed changes
  refine ⟨hkind, ?_, ?_, ?_, fun change => ⟨?_, ?_, ?_⟩⟩
  · rw [hwell.names, hkind]
    rfl
  · intro p hp
    exact ⟨isNaN_of_ordered (hwell.ordered p hp), hwell.ordered p hp⟩
  · intro text htext
    obtain ⟨hempty, hlabel⟩ := hwell.label text htext
    exact ⟨hempty, isPlainLabel_iff.mpr hlabel⟩
  · exact hwell.exists_error_iff_refused
  · exact fun cause => changed_of_error
  · exact fun h => hwell.eq_applied (Prod.ext rfl h)

end Element

end CircuitCode
