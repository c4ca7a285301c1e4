import CircuitCode.Proofs.Element.State

/-!
# Changes of an element

A change of a parameter is an attempt to assign some of its fields (`Element.change_eq_update`), so
what every attempt does every change does. With success or without, it keeps the kind of the element
and the names of its parameters and leaves a well-formed element well formed
(`Element.WellFormed.changed`). Without success it leaves the element as it was
(`Element.changed_of_error`).
-/

namespace CircuitCode

namespace ElementChange

/-- The name of the parameter that is changed, unless the label is. -/
def name? : ElementChange → Option String
  | .value name _ => some name
  | .lower name _ => some name
  | .upper name _ => some name
  | .fixed name _ => some name
  | .parameter name _ _ _ _ => some name
  | .label _ => none

/-- The parameter with the fields that are to be set. -/
def assign (p : Parameter) : ElementChange → Parameter
  | .value _ x => { p with value := x }
  | .lower _ x => { p with lower := x }
  | .upper _ x => { p with upper := x }
  | .fixed _ flag => { p with fixed := flag }
  | .parameter _ x low high flag => ⟨p.name, x, low, high, flag⟩
  | .label _ => p

/-- What a change leaves of the parameter, and whether it succeeds. The flag is set unchecked. -/
def attempt (change : ElementChange) (p : Parameter) : Parameter × Except ElementError Unit :=
  match change with
  | .fixed _ flag => ({ p with fixed := flag }, .ok ())
  | change => p.replace (change.assign p)

theorem name?_cases (change : ElementChange) :
    (∃ name, change.name? = some name) ∨ ∃ text, change = .label text := by
  cases change with
  | label text => exact .inr ⟨text, rfl⟩
  | _ => exact .inl ⟨_, rfl⟩

@[simp]
theorem name_assign (p : Parameter) (change : ElementChange) : (change.assign p).name = p.name := by
  cases change <;> rfl

/-- The fields are assigned if this leaves the parameter in order. If not, it is left as it is. -/
theorem attempt_cases (change : ElementChange) (p : Parameter) :
    change.attempt p = (change.assign p, .ok ()) ∧ (p.Ordered → (change.assign p).Ordered) ∨
      ∃ cause, change.attempt p = (p, .error cause) ∧ ¬ (change.assign p).Ordered := by
  cases change with
  | fixed name flag => exact .inl ⟨rfl, id⟩
  | _ =>
    rcases Parameter.replace_cases p (ElementChange.assign p _) with
      ⟨h, hordered⟩ | ⟨cause, h, hdisordered, -⟩
    · exact .inl ⟨h, fun _ => hordered⟩
    · exact .inr ⟨cause, h, hdisordered⟩

variable {change : ElementChange} {p : Parameter}

@[simp]
theorem name_attempt (change : ElementChange) (p : Parameter) :
    (change.attempt p).1.name = p.name := by
  rcases change.attempt_cases p with ⟨h, -⟩ | ⟨cause, h, -⟩ <;> simp [h]

theorem ordered_attempt (hp : p.Ordered) : (change.attempt p).1.Ordered := by
  rcases change.attempt_cases p with ⟨h, hordered⟩ | ⟨cause, h, -⟩
  · rw [h]
    exact hordered hp
  · rwa [h]

theorem attempt_of_error {cause : ElementError} (h : (change.attempt p).2 = .error cause) :
    (change.attempt p).1 = p := by
  rcases change.attempt_cases p with ⟨hok, -⟩ | ⟨cause', herror, -⟩
  · rw [hok] at h
    cases h
  · rw [herror]

theorem attempt_eq_ok_iff {q : Parameter} (hp : p.Ordered) :
    change.attempt p = (q, .ok ()) ↔ (change.assign p).Ordered ∧ change.assign p = q := by
  rcases change.attempt_cases p with ⟨h, hordered⟩ | ⟨cause, h, hdisordered⟩
  · simp [h, hordered hp]
  · simp [h, hdisordered]

end ElementChange

namespace Element

variable {e : Element} {change : ElementChange} {name : String}

/-- The element after a change, whether this succeeds or not. -/
def changed (change : ElementChange) (e : Element) : Element := (e.change change).1

theorem change_eq_update (hname : change.name? = some name) :
    e.change change = e.update name change.attempt := by
  cases change with
  | label text => cases hname
  | _ =>
    obtain rfl := Option.some.inj hname
    rfl

/-- A change leaves the element as it is, or it attempts to change the parameter that is found under
    the name, or it sets a label. -/
theorem changed_cases (e : Element) (change : ElementChange) :
    e.changed change = e ∨
      (∃ name p, e.parameter name = .ok p ∧
        e.changed change = e.store name (change.attempt p).1) ∨
      ∃ text, isLabel text = true ∧
        e.changed change = { e with label := if text.isEmpty then none else some text } := by
  unfold changed
  rcases change.name?_cases with ⟨name, hname⟩ | ⟨text, rfl⟩
  · rw [change_eq_update hname, update]
    cases hp : e.parameter name with
    | error cause => exact .inl rfl
    | ok p => exact .inr (.inl ⟨name, p, hp, rfl⟩)
  · rw [change_label]
    by_cases htext : isLabel text = true
    · rw [if_pos htext]
      exact .inr (.inr ⟨text, htext, rfl⟩)
    · rw [if_neg htext]
      exact .inl rfl

/-- A change that fails leaves the element as it is. -/
theorem changed_of_error {cause : ElementError} (h : (e.change change).2 = .error cause) :
    e.changed change = e := by
  unfold changed
  rcases change.name?_cases with ⟨name, hname⟩ | ⟨text, rfl⟩
  · rw [change_eq_update hname] at h ⊢
    exact update_of_error (fun p cause => ElementChange.attempt_of_error) h
  · rw [change_label] at h ⊢
    by_cases htext : isLabel text = true
    · rw [if_pos htext] at h
      cases h
    · rw [if_neg htext]

/-- What no change of an element touches: its kind and its identifier. -/
def frame (e : Element) : ElementKind × Option Nat := (e.kind, e.identifier)

theorem frame_changed (e : Element) (change : ElementChange) :
    (e.changed change).frame = e.frame := by
  rcases e.changed_cases change with h | ⟨name, p, -, h⟩ | ⟨text, -, h⟩ <;> rw [h] <;> rfl

theorem kind_changed (e : Element) (change : ElementChange) : (e.changed change).kind = e.kind :=
  congrArg Prod.fst (e.frame_changed change)

theorem names_changed (e : Element) (change : ElementChange) :
    (e.changed change).parameters.map Parameter.name = e.parameters.map Parameter.name := by
  rcases e.changed_cases change with h | ⟨name, p, hp, h⟩ | ⟨text, -, h⟩
  · rw [h]
  · rw [h, names_store hp (change.name_attempt p)]
  · rw [h]

theorem wellFormed_ofKind (kind : ElementKind) : (ofKind kind).WellFormed := by
  refine ⟨?_, ?_, nofun⟩
  · rw [ofKind, List.map_map]
    rfl
  · exact List.forall_mem_map.mpr kind.ordered_instantiate

theorem WellFormed.store {p q : Parameter} (he : e.WellFormed) (hp : e.parameter name = .ok p)
    (hname : q.name = p.name) (hq : q.Ordered) : (e.store name q).WellFormed := by
  refine ⟨(names_store hp hname).trans he.names, ?_, he.label⟩
  intro r hr
  rcases List.mem_or_eq_of_mem_set hr with hr | rfl
  · exact he.ordered r hr
  · exact hq

/-- Every change leaves a well-formed element well formed. -/
theorem WellFormed.changed (he : e.WellFormed) (change : ElementChange) :
    (e.changed change).WellFormed := by
  rcases e.changed_cases change with h | ⟨name, p, hp, h⟩ | ⟨text, htext, h⟩
  · rwa [h]
  · rw [h]
    have hordered : p.Ordered := he.ordered p (mem_of_parameter hp).1
    exact he.store hp (change.name_attempt p) (ElementChange.ordered_attempt hordered)
  · rw [h]
    refine ⟨he.names, he.ordered, ?_⟩
    intro label hlabel
    by_cases hempty : text.isEmpty
    · simp [hempty] at hlabel
    · obtain rfl : text = label := by simpa [hempty] using hlabel
      exact ⟨by simpa using hempty, htext⟩

theorem WellFormed.of_change {e' : Element} {outcome : Except ElementError Unit}
    (he : e.WellFormed) (h : e.change change = (e', outcome)) : e'.WellFormed := by
  have hchanged := he.changed change
  rwa [Element.changed, h] at hchanged

end Element

end CircuitCode
