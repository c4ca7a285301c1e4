import CircuitCode.Proofs.Element.State
import CircuitCode.Proofs.Text.Span

/-!
# Names of parameters

The symbol of a parameter joins its name, the symbol of the element and the element's label or
identifier by underscores. Names and symbols have no underscore themselves, so all three parts can
be read off; but a label may be written like an identifier, so from the last part one cannot tell
which of them it is (`Element.parameterSymbol_inj`).
-/

namespace CircuitCode

namespace ElementKind

theorem symbol_inj {kind kind' : ElementKind} (h : kind.symbol = kind'.symbol) : kind = kind' := by
  have hkind := kind.ofSymbol?_symbol
  rw [h, kind'.ofSymbol?_symbol] at hkind
  exact (Option.some.inj hkind).symm

theorem not_underscore_symbol (kind : ElementKind) :
    ∀ ch ∈ kind.symbol.toList, (ch != '_') = true := by
  have hall : (kind.symbol.toList.all fun ch => ch != '_') = true := by
    cases kind <;> rfl
  exact List.all_eq_true.mp hall

theorem not_underscore_name (kind : ElementKind) :
    ∀ d ∈ kind.parameters, ∀ ch ∈ d.name.toList, (ch != '_') = true := by
  have hall : (kind.parameters.all fun d => d.name.toList.all fun ch => ch != '_') = true := by
    cases kind <;> rfl
  intro d hd
  exact List.all_eq_true.mp (List.all_eq_true.mp hall d hd)

end ElementKind

namespace Element

/-- What follows the symbol in the label of an element: the label it was given, or else the
    identifier. -/
def suffix (e : Element) : Option String := e.label.or (e.identifier.map toString)

/-- The text of a suffix. -/
def suffixText : Option String → List Char
  | some text => '_' :: text.toList
  | none => []

theorem head?_suffixText (suffix : Option String) :
    (suffixText suffix).head?.any (fun ch => ch != '_') = false := by
  cases suffix <;> rfl

theorem suffixText_inj {suffix suffix' : Option String}
    (h : suffixText suffix = suffixText suffix') : suffix = suffix' := by
  cases suffix with
  | none =>
    cases suffix' with
    | none => rfl
    | some text => cases h
  | some text =>
    cases suffix' with
    | none => cases h
    | some text' => rw [String.toList_inj.mp (List.cons.inj h).2]

theorem toList_fullLabel (e : Element) :
    e.fullLabel.toList = e.kind.symbol.toList ++ suffixText e.suffix := by
  unfold fullLabel suffix defaultLabel symbol
  cases e.label with
  | some label => simp [suffixText]
  | none =>
    cases e.identifier with
    | some identifier => simp [suffixText]
    | none => simp [suffixText]

theorem toList_parameterSymbol (e : Element) (name : String) :
    (e.parameterSymbol name).toList =
      name.toList ++ '_' :: (e.kind.symbol.toList ++ suffixText e.suffix) := by
  rw [parameterSymbol, String.toList_append, String.toList_append, toList_fullLabel]
  simp

theorem WellFormed.not_underscore_name {e : Element} (he : e.WellFormed) {p : Parameter}
    (hp : p ∈ e.parameters) : ∀ ch ∈ p.name.toList, (ch != '_') = true := by
  have hname : p.name ∈ e.parameters.map Parameter.name := List.mem_map_of_mem hp
  rw [he.names] at hname
  obtain ⟨d, hd, heq⟩ := List.mem_map.mp hname
  rw [← heq]
  exact e.kind.not_underscore_name d hd

/-- Two parameters have one symbol exactly if they have one name and belong to elements of one
    kind that are labelled alike. -/
theorem parameterSymbol_inj {e e' : Element} (he : e.WellFormed) (he' : e'.WellFormed)
    {p p' : Parameter} (hp : p ∈ e.parameters) (hp' : p' ∈ e'.parameters) :
    e.parameterSymbol p.name = e'.parameterSymbol p'.name ↔
      p.name = p'.name ∧ e.kind = e'.kind ∧ e.suffix = e'.suffix := by
  rw [← String.toList_inj, toList_parameterSymbol, toList_parameterSymbol]
  constructor
  · intro h
    -- The first underscore ends the name, and the next one the symbol.
    obtain ⟨hname, hlabel⟩ := append_inj_of_head? (he.not_underscore_name hp)
      (he'.not_underscore_name hp') rfl rfl h
    obtain ⟨hsymbol, hsuffix⟩ := append_inj_of_head? e.kind.not_underscore_symbol
      e'.kind.not_underscore_symbol (head?_suffixText _) (head?_suffixText _)
      (List.cons.inj hlabel).2
    exact ⟨String.toList_inj.mp hname, ElementKind.symbol_inj (String.toList_inj.mp hsymbol),
      suffixText_inj hsuffix⟩
  · rintro ⟨hname, hkind, hsuffix⟩
    rw [hname, hkind, hsuffix]

end Element

end CircuitCode
