import CircuitCode.Proofs.Circuit.Numbering
import CircuitCode.Proofs.Circuit.Short
import CircuitCode.Proofs.Element.Label

/-!
# Labels and the table of parameter values

The table of parameter values has one entry for each symbol. It keeps all values exactly if no two
elements of one kind are labelled alike (`Circuit.perm_symbolValues_iff`), as in a circuit that is
parsed from a text without labels. A label that is written like the identifier of another element
of the kind, or one that is used twice, makes values get lost.
-/

namespace CircuitCode

/-- No two elements of one kind are labelled alike. -/
def LabelledApart (elements : List Element) : Prop :=
  elements.Pairwise fun e e' => e.kind = e'.kind → e.suffix ≠ e'.suffix

namespace Element

theorem WellFormed.exists_mem_parameters {e : Element} (he : e.WellFormed) :
    ∃ p, p ∈ e.parameters := by
  have hkind : e.kind.parameters ≠ [] := by
    cases e.kind <;> exact List.cons_ne_nil _ _
  apply List.exists_mem_of_ne_nil
  intro hnil
  have hnames := he.names
  rw [hnil] at hnames
  exact hkind (List.map_eq_nil_iff.mp hnames.symm)

theorem map_fst_parameterSymbols (e : Element) :
    (Circuit.parameterSymbols e).map Prod.fst =
      e.parameters.map fun p => e.parameterSymbol p.name := by
  rw [Circuit.parameterSymbols, List.map_map]
  rfl

theorem WellFormed.nodup_parameterSymbols {e : Element} (he : e.WellFormed) :
    ((Circuit.parameterSymbols e).map Prod.fst).Nodup := by
  rw [map_fst_parameterSymbols]
  refine List.Nodup.map_on ?_ (List.Nodup.of_map _ he.nodup_names)
  intro p hp p' hp' hsymbol
  have hname := ((parameterSymbol_inj he he hp hp').mp hsymbol).1
  exact List.inj_on_of_nodup_map he.nodup_names hp hp' hname

/-- The parameters of two elements share no symbol exactly if the elements are of different kinds
    or are labelled differently. -/
theorem disjoint_parameterSymbols_iff {e e' : Element} (he : e.WellFormed)
    (he' : e'.WellFormed) :
    List.Disjoint ((Circuit.parameterSymbols e).map Prod.fst)
        ((Circuit.parameterSymbols e').map Prod.fst) ↔
      (e.kind = e'.kind → e.suffix ≠ e'.suffix) := by
  rw [map_fst_parameterSymbols, map_fst_parameterSymbols]
  constructor
  · intro hdisjoint hkind hsuffix
    obtain ⟨p, hp⟩ := he.exists_mem_parameters
    have hname : p.name ∈ e'.parameters.map Parameter.name := by
      rw [he'.names, ← hkind, ← he.names]
      exact List.mem_map_of_mem hp
    obtain ⟨p', hp', hsame⟩ := List.mem_map.mp hname
    have hsymbol : e.parameterSymbol p.name = e'.parameterSymbol p'.name :=
      (parameterSymbol_inj he he' hp hp').mpr ⟨hsame.symm, hkind, hsuffix⟩
    exact hdisjoint (List.mem_map.mpr ⟨p, hp, hsymbol⟩) (List.mem_map.mpr ⟨p', hp', rfl⟩)
  · intro hapart symbol hsymbol hsymbol'
    obtain ⟨p, hp, rfl⟩ := List.mem_map.mp hsymbol
    obtain ⟨p', hp', hsame⟩ := List.mem_map.mp hsymbol'
    obtain ⟨-, hkind, hsuffix⟩ := (parameterSymbol_inj he he' hp hp').mp hsame.symm
    exact hapart hkind hsuffix

end Element

theorem toString_identifier_inj {m n : Nat} (h : toString m = toString n) : m = n := by
  rw [Nat.toString_eq_repr, Nat.toString_eq_repr, Nat.repr_eq_ofList_toDigits,
    Nat.repr_eq_ofList_toDigits, String.ofList_inj] at h
  have hvalue := congrArg (fun digits => Nat.ofDigitChars 10 digits 0) h
  simpa only [Nat.ofDigitChars_ten_toDigits] using hvalue

/-- Numbered elements without labels are labelled apart, if there are identifiers for all. -/
theorem Numbered.labelledApart {elements : List Element} (h : Numbered elements)
    (hlabel : ∀ e ∈ elements, e.label = none)
    (hcount : ∀ kind, (elements.map Element.kind).count kind ≤ maxIdentifier) :
    LabelledApart elements := by
  apply List.pairwise_iff_getElem.mpr
  intro i j hi hj hij hkind hsuffix
  have he : elements[i]? = some elements[i] := List.getElem?_eq_getElem hi
  have he' : elements[j]? = some elements[j] := List.getElem?_eq_getElem hj
  have hlt := count_take_lt hij he
  unfold Element.suffix at hsuffix
  rw [hlabel _ (List.getElem_mem hi), hlabel _ (List.getElem_mem hj), Option.none_or,
    Option.none_or, h.identifier_eq_some hcount he, h.identifier_eq_some hcount he',
    Option.map_some, Option.map_some, Option.some.injEq] at hsuffix
  have hnumber := toString_identifier_inj hsuffix
  rw [← hkind] at hnumber
  omega

namespace Circuit

variable {c : Circuit}

theorem nodup_parameterNames_iff (hc : ∀ e ∈ c.elements, e.WellFormed) :
    c.parameterNames.Nodup ↔ LabelledApart c.elements := by
  rw [parameterNames, List.map_flatMap, List.nodup_flatMap]
  have hapart : LabelledApart c.elements ↔ c.elements.Pairwise (Function.onFun List.Disjoint
      fun e => (parameterSymbols e).map Prod.fst) :=
    List.Pairwise.iff_of_mem fun he he' =>
      (Element.disjoint_parameterSymbols_iff (hc _ he) (hc _ he')).symm
  rw [hapart]
  exact and_iff_right fun e he => (hc e he).nodup_parameterSymbols

/-- What the symbols of parameters tell apart. Two are the same exactly if they belong to parameters
    of one name and to elements of one kind that are labelled alike. So the table of values has
    one entry for each parameter, and loses none of the values, exactly if no two elements of one
    kind are labelled alike. A parsed circuit without labels is such a circuit. -/
theorem perm_symbolValues_iff {c : Circuit} (hc : ∀ e ∈ c.elements, e.WellFormed) :
    (∀ e ∈ c.elements, ∀ e' ∈ c.elements, ∀ p ∈ e.parameters, ∀ p' ∈ e'.parameters,
      (e.parameterSymbol p.name = e'.parameterSymbol p'.name ↔
        p.name = p'.name ∧ e.kind = e'.kind ∧ e.suffix = e'.suffix)) ∧
    (c.symbolValues.Perm (c.elements.flatMap parameterSymbols) ↔ LabelledApart c.elements) ∧
    ∀ text, CircuitCode.parse text = .ok c → (∀ e ∈ c.elements, e.label = none) →
      (∀ kind, (c.elements.map Element.kind).count kind ≤ maxIdentifier) →
      c.symbolValues.Perm (c.elements.flatMap parameterSymbols) := by
  have hperm : c.symbolValues.Perm (c.elements.flatMap parameterSymbols) ↔
      LabelledApart c.elements :=
    SymbolTable.perm_ofList_iff.trans (nodup_parameterNames_iff hc)
  refine ⟨?_, hperm, ?_⟩
  · intro e he e' he' p hp p' hp'
    exact Element.parameterSymbol_inj (hc e he) (hc e' he') hp hp'
  · intro text hparse hlabel hcount
    exact hperm.mpr ((numbered_of_parse hparse).labelledApart hlabel hcount)

/-- Three resistors: two with labels, and one with the identifier three. -/
def labelledResistors : Circuit :=
  (parse "R\x7bR=1:2\x7d(R\x7bR=2:a\x7dR)").toOption.getD ⟨⟨.series, []⟩⟩

theorem parse_labelledResistors :
    CircuitCode.parse "R\x7bR=1:2\x7d(R\x7bR=2:a\x7dR)" = .ok labelledResistors := by
  refine parse_eq_ok_getD ?_ _
  decide +kernel

/-- A label that could be an identifier does no harm if no element has this identifier. -/
theorem perm_symbolValues_iff_labelledResistors :
    labelledResistors.symbolValues = [("R_R_2", 1), ("R_R_3", 1e3), ("R_R_a", 2)] ∧
      labelledResistors.symbolValues.Perm
        (labelledResistors.elements.flatMap parameterSymbols) := by
  have hapart : LabelledApart labelledResistors.elements := by
    have hsuffixes : (labelledResistors.elements.map Element.suffix).Nodup := by
      have helements : labelledResistors.elements.map Element.suffix =
          [some "2", some "a", some "3"] := by
        decide +kernel
      rw [helements]
      decide
    refine List.Pairwise.imp ?_ (List.pairwise_map.mp hsuffixes)
    intro e e' hne _
    exact hne
  refine ⟨by decide +kernel, ?_⟩
  exact (perm_symbolValues_iff (wellFormed_of_parse parse_labelledResistors)).2.1.mpr hapart

/-- Two resistors, of which the first is labelled with the identifier of the second. -/
def clashingLabel : Circuit := (parse "R\x7bR=1:2\x7dR").toOption.getD ⟨⟨.series, []⟩⟩

/-- The parameters of both resistors have one symbol, and the value of the first one is lost. -/
theorem not_perm_symbolValues_clashingLabel :
    CircuitCode.parse "R\x7bR=1:2\x7dR" = .ok clashingLabel ∧
      clashingLabel.elements.flatMap parameterSymbols = [("R_R_2", 1), ("R_R_2", 1e3)] ∧
      clashingLabel.symbolValues = [("R_R_2", 1e3)] ∧
      ¬clashingLabel.symbolValues.Perm (clashingLabel.elements.flatMap parameterSymbols) := by
  have hparse : CircuitCode.parse "R\x7bR=1:2\x7dR" = .ok clashingLabel := by
    refine parse_eq_ok_getD ?_ _
    decide +kernel
  have hsymbols : clashingLabel.elements.flatMap parameterSymbols =
      [("R_R_2", 1), ("R_R_2", 1e3)] := by
    decide +kernel
  have hvalues : clashingLabel.symbolValues = [("R_R_2", 1e3)] := by
    decide +kernel
  refine ⟨hparse, hsymbols, hvalues, ?_⟩
  rw [hsymbols, hvalues]
  intro hperm
  exact absurd hperm.length_eq (by decide)

end Circuit

end CircuitCode
