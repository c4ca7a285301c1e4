import CircuitCode.Proofs.Element.Limits
import CircuitCode.Proofs.Parsing.Printed

/-!
# Elements read back from their texts

`Element.reread` is the element that the text of a well-formed element stands for: every number that
is written is read back, and a limit that is not written is that of the kind. Reading back keeps
limits in order.
-/

namespace CircuitCode

open Grammar

namespace Number

variable {decimals : Nat} {x y : Number}

/-- Numbers that are written alike are read back alike. -/
theorem reread_eq_of_code_eq (hx : x.isNaN = false) (hy : y.isNaN = false)
    (h : x.code decimals = y.code decimals) : x.reread decimals = y.reread decimals := by
  have hread := ofLiteral?_code hx decimals
  rw [h, ofLiteral?_code hy decimals] at hread
  exact (Option.some.inj hread).symm

end Number

/-- A parameter read back from its text: a limit that is not written is as defined. -/
def Parameter.reread (decimals : Nat) (p : Parameter) (definition : ParameterDefinition) :
    Parameter :=
  ⟨definition.name, p.value.reread decimals,
    if p.lower.code decimals = definition.lower.code decimals then definition.lower
      else p.lower.reread decimals,
    if p.upper.code decimals = definition.upper.code decimals then definition.upper
      else p.upper.reread decimals, p.fixed⟩

namespace Parameter

variable {p : Parameter} {kind : ElementKind} {definition : ParameterDefinition}

/-- A limit that is written like that of the kind is read back as it, and that one reads back as
    itself. So limits are read back whether they are written or not. -/
theorem lower_reread (hp : p.Ordered) (hd : definition ∈ kind.parameters) (decimals : Nat) :
    (p.reread decimals definition).lower = p.lower.reread decimals := by
  unfold Parameter.reread
  dsimp only
  split
  · next hsame =>
    rw [Number.reread_eq_of_code_eq hp.1.1 (kind.isNaN_limits definition hd).1 hsame,
      ElementKind.reread_lower hd]
  · rfl

theorem upper_reread (hp : p.Ordered) (hd : definition ∈ kind.parameters) (decimals : Nat) :
    (p.reread decimals definition).upper = p.upper.reread decimals := by
  unfold Parameter.reread
  dsimp only
  split
  · next hsame =>
    rw [Number.reread_eq_of_code_eq hp.2.2.1 (kind.isNaN_limits definition hd).2 hsame,
      ElementKind.reread_upper hd]
  · rfl

/-- Numbers between limits stay between them when all are read back. -/
theorem Ordered.reread (hp : p.Ordered) (hd : definition ∈ kind.parameters) (decimals : Nat) :
    (p.reread decimals definition).Ordered := by
  unfold Parameter.Ordered
  rw [lower_reread hp hd, upper_reread hp hd]
  exact ⟨Number.reread_le_reread hp.1 decimals, Number.reread_le_reread hp.2 decimals⟩

end Parameter

namespace Element

/-- An element read back from its text. -/
def reread (decimals : Nat) (e : Element) : Element :=
  ⟨e.kind, none, e.label, e.entries.map fun entry => entry.1.reread decimals entry.2⟩

variable {e : Element} {entry : Parameter × ParameterDefinition}

theorem WellFormed.map_snd_entries (he : e.WellFormed) :
    e.entries.map Prod.snd = e.kind.parameters := by
  have hlength := congrArg List.length he.names
  rw [List.length_map, List.length_map] at hlength
  exact List.map_snd_zip (Nat.le_of_eq hlength.symm)

theorem WellFormed.map_fst_entries (he : e.WellFormed) :
    e.entries.map Prod.fst = e.parameters := by
  have hlength := congrArg List.length he.names
  rw [List.length_map, List.length_map] at hlength
  exact List.map_fst_zip (Nat.le_of_eq hlength)

theorem WellFormed.name_entry (he : e.WellFormed) :
    ∀ entry ∈ e.entries, entry.1.name = entry.2.name := by
  have hnames := he.names
  rw [← he.map_fst_entries, ← he.map_snd_entries, List.map_map, List.map_map] at hnames
  exact List.map_inj_left.mp hnames

theorem WellFormed.ordered_entry (he : e.WellFormed) (hentry : entry ∈ e.entries) :
    entry.1.Ordered :=
  he.ordered entry.1 (List.of_mem_zip hentry).1

theorem definition_entry (hentry : entry ∈ e.entries) : entry.2 ∈ e.kind.parameters :=
  (List.of_mem_zip hentry).2

theorem mem_numbers_printed {p : Parameter} {definition : ParameterDefinition} {decimals : Nat}
    {x : Number} :
    x ∈ (p.printed decimals definition).numbers ↔
      x = p.value ∨ (p.lower.code decimals ≠ definition.lower.code decimals ∧ x = p.lower) ∨
        (p.upper.code decimals ≠ definition.upper.code decimals ∧ x = p.upper) := by
  unfold Parameter.printed Definition.numbers
  dsimp only
  split <;> split <;> simp_all

theorem isNaN_numbers_printed {p : Parameter} {definition : ParameterDefinition} (hp : p.Ordered)
    (decimals : Nat) : ∀ x ∈ (p.printed decimals definition).numbers, x.isNaN = false := by
  obtain ⟨hlower, hupper⟩ := hp
  intro x hx
  rcases mem_numbers_printed.mp hx with rfl | ⟨-, rfl⟩ | ⟨-, rfl⟩
  · exact hupper.1
  · exact hlower.1
  · exact hupper.2.1

theorem isName_definition (kind : ElementKind) :
    ∀ d ∈ kind.parameters, Lexeme.isName d.name.toList = true := by
  cases kind <;> decide

theorem WellFormed.writable (he : e.WellFormed) (decimals : Nat) :
    (e.printed decimals).Writable := by
  refine ⟨?_, ?_, he.label⟩
  · refine List.forall_mem_map.mpr fun entry hentry => ?_
    rw [Parameter.printed, he.name_entry entry hentry]
    exact isName_definition e.kind entry.2 (definition_entry hentry)
  · refine List.forall_mem_map.mpr fun entry hentry => ?_
    exact isNaN_numbers_printed (he.ordered_entry hentry) decimals

theorem WellFormed.definitions_ne_nil (he : e.WellFormed) (decimals : Nat) :
    (e.printed decimals).definitions ≠ [] := by
  intro hnil
  have hentries : e.entries = [] := List.map_eq_nil_iff.mp hnil
  have hparameters := he.map_snd_entries
  rw [hentries] at hparameters
  cases hkind : e.kind <;> rw [hkind] at hparameters <;> cases hparameters

theorem WellFormed.names_reread_printed (he : e.WellFormed) (decimals : Nat) :
    ((e.printed decimals).reread decimals).definitions.map Definition.name =
      e.kind.parameters.map ParameterDefinition.name := by
  rw [← he.map_snd_entries]
  simp only [Leaf.reread, printed, List.map_map]
  exact List.map_congr_left fun entry hentry => he.name_entry entry hentry

theorem getD_lower_reread_printed (decimals : Nat) (p : Parameter)
    (definition : ParameterDefinition) :
    ((p.printed decimals definition).reread decimals).lower.getD definition.lower =
      (p.reread decimals definition).lower := by
  unfold Parameter.printed Definition.reread Parameter.reread
  dsimp only
  split <;> rfl

theorem getD_upper_reread_printed (decimals : Nat) (p : Parameter)
    (definition : ParameterDefinition) :
    ((p.printed decimals definition).reread decimals).upper.getD definition.upper =
      (p.reread decimals definition).upper := by
  unfold Parameter.printed Definition.reread Parameter.reread
  dsimp only
  split <;> rfl

/-- What circuit code gives for an element can be read again, however the numbers are rounded. -/
theorem WellFormed.valid_reread_printed (he : e.WellFormed) (decimals : Nat) :
    ((e.printed decimals).reread decimals).Valid := by
  have hnames := he.names_reread_printed decimals
  refine ⟨?_, ?_, ?_, ?_⟩
  · intro d hd
    have hmem := List.mem_map_of_mem (f := Definition.name) hd
    rwa [hnames] at hmem
  · rw [hnames]
    exact e.kind.nodup_names
  · intro d hd definition hdefinition hname
    simp only [Leaf.reread, printed, List.map_map] at hd
    obtain ⟨entry, hentry, rfl⟩ := List.mem_map.mp hd
    have hsame : definition = entry.2 :=
      List.inj_on_of_nodup_map e.kind.nodup_names hdefinition (definition_entry hentry)
        (hname.trans (he.name_entry entry hentry))
    subst hsame
    have hordered := (he.ordered_entry hentry).reread (definition_entry hentry) decimals
    rw [Function.comp_apply, getD_lower_reread_printed, getD_upper_reread_printed]
    exact hordered
  · intro text htext hbrace
    have hlabel := (he.label text htext).2
    simp only [isLabel, Bool.and_eq_true, Bool.not_eq_true', List.any_eq_false, Bool.or_eq_true,
      beq_iff_eq, not_or] at hlabel
    exact (hlabel.1 _ hbrace).1 rfl

/-- The element that circuit code gives, read back. -/
theorem WellFormed.element_reread_printed (he : e.WellFormed) (decimals : Nat) :
    ((e.printed decimals).reread decimals).element = e.reread decimals := by
  have hlabel : e.label.filter (fun text => text != "") = e.label := by
    cases htext : e.label with
    | none => rfl
    | some text => simp [(he.label text htext).1]
  have hparameters :
      e.kind.parameters.map ((e.printed decimals).reread decimals).parameter =
        e.entries.map fun entry => entry.1.reread decimals entry.2 := by
    rw [← he.map_snd_entries, List.map_map]
    refine List.map_congr_left fun entry hentry => ?_
    have hfind : ((e.printed decimals).reread decimals).definitions.find?
        (fun d => d.name == entry.2.name) =
          some ((entry.1.printed decimals entry.2).reread decimals) := by
      have hnodup : (((e.printed decimals).reread decimals).definitions.map
          Definition.name).Nodup := by
        rw [he.names_reread_printed]
        exact e.kind.nodup_names
      have hmem : (entry.1.printed decimals entry.2).reread decimals ∈
          ((e.printed decimals).reread decimals).definitions := by
        simp only [Leaf.reread, printed, List.map_map]
        exact List.mem_map.mpr ⟨entry, hentry, rfl⟩
      rw [← he.name_entry entry hentry]
      exact (find?_eq_some_iff_of_nodup hnodup).mpr ⟨hmem, rfl⟩
    rw [Function.comp_apply, Leaf.parameter, hfind]
    dsimp only
    rw [getD_lower_reread_printed, getD_upper_reread_printed]
    rfl
  change Element.mk e.kind none (e.label.filter fun text => text != "")
    (e.kind.parameters.map ((e.printed decimals).reread decimals).parameter) = _
  rw [hlabel, hparameters]
  rfl

end Element

end CircuitCode
