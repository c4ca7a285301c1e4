import Mathlib.Data.List.Perm.Subperm
import CircuitCode.Proofs.Parsing.Reader
import CircuitCode.Proofs.Token.Label

/-!
# Reading elements

A parameter block is read one definition after the other, and after each the element is the one
that the definitions so far stand for. So the element that is read in the end is `Leaf.element` of
what the grammar derives, and reading fails exactly where that is not valid.
-/

namespace CircuitCode

namespace Grammar

theorem isLabel_iff {text : String} (h : IsLabelText text) :
    Element.isLabel text = true ↔ '\x7b' ∉ text.toList := by
  obtain ⟨hclose, htrimmed⟩ := h
  unfold Element.isLabel
  rw [htrimmed, Bool.and_true, Bool.not_eq_true', Bool.eq_false_iff, ne_eq, List.any_eq_true,
    not_iff_not]
  constructor
  · rintro ⟨c, hmem, hc⟩
    rw [Bool.or_eq_true, beq_iff_eq, beq_iff_eq] at hc
    obtain rfl | rfl := hc
    · exact hmem
    · exact absurd hmem hclose
  · exact fun hmem => ⟨_, hmem, rfl⟩

namespace Leaf

theorem valid_bare (kind : ElementKind) : (⟨kind, [], none⟩ : Leaf).Valid :=
  ⟨by simp, by simp, by simp, by simp⟩

/-- The element with one more definition. -/
def define (x : Leaf) (d : Definition) : Leaf := { x with definitions := x.definitions ++ [d] }

theorem name_parameter (x : Leaf) (p : ParameterDefinition) : (x.parameter p).name = p.name := by
  unfold parameter
  split <;> rfl

theorem names_element (x : Leaf) :
    x.element.parameters.map Parameter.name = x.kind.parameters.map ParameterDefinition.name := by
  simp [element, name_parameter]

theorem parameter_define_of_eq {x : Leaf} {d : Definition} {p : ParameterDefinition}
    (hname : p.name = d.name) (hfresh : d.name ∉ x.definitions.map Definition.name) :
    (x.define d).parameter p =
      ⟨p.name, d.value, d.lower.getD p.lower, d.upper.getD p.upper, d.fixed⟩ := by
  have hnone : x.definitions.find? (fun d' => d'.name == d.name) = none := by
    rw [List.find?_eq_none]
    intro d' hmem
    rw [beq_iff_eq]
    intro heq
    exact hfresh (heq ▸ List.mem_map_of_mem hmem)
  simp [parameter, define, List.find?_append, hnone, hname]

theorem parameter_define_of_ne {x : Leaf} {d : Definition} {p : ParameterDefinition}
    (hname : p.name ≠ d.name) : (x.define d).parameter p = x.parameter p := by
  simp [parameter, define, List.find?_append, hname.symm]

theorem valid_define_iff {x : Leaf} {d : Definition} {p : ParameterDefinition} (hx : x.Valid)
    (hp : x.kind.parameter? d.name = some p)
    (hfresh : d.name ∉ x.definitions.map Definition.name) :
    (x.define d).Valid ↔ d.lower.getD p.lower ≤ d.value ∧ d.value ≤ d.upper.getD p.upper := by
  obtain ⟨hmem, hname⟩ := ElementKind.parameter?_eq_some_iff.mp hp
  constructor
  · intro h
    exact h.ordered d (by simp [define]) p hmem hname
  · intro hordered
    refine ⟨?_, ?_, ?_, hx.label⟩
    · intro d' hd'
      obtain hd' | rfl : d' ∈ x.definitions ∨ d' = d := by simpa [define] using hd'
      · exact hx.names d' hd'
      · exact hname ▸ List.mem_map_of_mem hmem
    · simp only [define, List.map_append, List.map_cons, List.map_nil]
      exact hx.distinct.append (List.nodup_singleton _) (by simpa using hfresh)
    · intro d' hd' p' hp' hname'
      obtain hd' | rfl : d' ∈ x.definitions ∨ d' = d := by simpa [define] using hd'
      · exact hx.ordered d' hd' p' hp' hname'
      · obtain rfl : p' = p := Option.some.inj <|
          (ElementKind.parameter?_eq_some_iff.mpr ⟨hp', hname'⟩).symm.trans hp
        exact hordered

/-- Setting what a new definition gives leads to the element that all definitions stand for. -/
theorem setParameter_element_eq_ok_iff {x : Leaf} {d : Definition} {p : ParameterDefinition}
    {e : Element} (hx : x.Valid) (hp : x.kind.parameter? d.name = some p)
    (hfresh : d.name ∉ x.definitions.map Definition.name) :
    x.element.setParameter p.name d.value (d.lower.getD p.lower) (d.upper.getD p.upper) d.fixed =
        .ok e ↔
      (x.define d).Valid ∧ e = (x.define d).element := by
  obtain ⟨hmem, hname⟩ := ElementKind.parameter?_eq_some_iff.mp hp
  have helement : ({ x.element with
      parameters := x.element.parameters.map fun q =>
        if q.name = p.name then
          ⟨p.name, d.value, d.lower.getD p.lower, d.upper.getD p.upper, d.fixed⟩
        else q } : Element) = (x.define d).element := by
    simp only [element, List.map_map, define, Element.mk.injEq, true_and]
    refine List.map_congr_left fun q hq => ?_
    simp only [Function.comp_apply, name_parameter]
    by_cases hqp : q.name = p.name
    · obtain rfl : q = p := List.inj_on_of_nodup_map x.kind.nodup_names hq hmem hqp
      rw [if_pos rfl]
      exact (parameter_define_of_eq hname hfresh).symm
    · rw [if_neg hqp]
      exact (parameter_define_of_ne (hname ▸ hqp)).symm
  have hnodup : (x.element.parameters.map Parameter.name).Nodup := by
    rw [names_element]
    exact x.kind.nodup_names
  rw [Element.setParameter_eq_ok_iff hnodup, helement, names_element,
    valid_define_iff hx hp hfresh, and_assoc, and_iff_right (List.mem_map_of_mem hmem)]

/-- An element has at most as many definitions as its kind has parameters. -/
theorem Valid.length_le {x : Leaf} (hx : x.Valid) :
    x.definitions.length ≤ x.kind.parameters.length := by
  have hsubset : x.definitions.map Definition.name ⊆
      x.kind.parameters.map ParameterDefinition.name := by
    intro name hname
    obtain ⟨d, hd, rfl⟩ := List.mem_map.mp hname
    exact hx.names d hd
  simpa using (List.Nodup.subperm hx.distinct hsubset).length_le

theorem Valid.of_define {x : Leaf} {d : Definition} (h : (x.define d).Valid) :
    (∃ p, x.kind.parameter? d.name = some p) ∧ d.name ∉ x.definitions.map Definition.name := by
  constructor
  · obtain ⟨p, hp, hname⟩ := List.mem_map.mp (h.names d (by simp [define]))
    exact ⟨p, ElementKind.parameter?_eq_some_iff.mpr ⟨hp, hname⟩⟩
  · have hdistinct := h.distinct
    simp only [define, List.map_append, List.map_cons, List.map_nil] at hdistinct
    intro hmem
    exact List.disjoint_of_nodup_append hdistinct hmem (List.mem_singleton_self _)

/-- The element with the definitions and the label of a block. -/
def extend (x : Leaf) (definitions : List Definition) (label : Option String) : Leaf :=
  ⟨x.kind, x.definitions ++ definitions, label⟩

theorem extend_cons (x : Leaf) (d : Definition) (definitions : List Definition)
    (label : Option String) :
    x.extend (d :: definitions) label = (x.define d).extend definitions label := by
  simp [extend, define]

theorem extend_singleton_none {x : Leaf} (hx : x.label = none) (d : Definition) :
    x.extend [d] none = x.define d := by
  simp [extend, define, hx]

/-- A valid element stays valid when definitions at the end and the label are left out. -/
theorem Valid.of_extend {x : Leaf} {definitions : List Definition} {label : Option String}
    (h : (x.extend definitions label).Valid) (hx : x.label = none) : x.Valid := by
  have hdistinct := h.distinct
  simp only [extend, List.map_append] at hdistinct
  exact ⟨fun d hd => h.names d (List.mem_append_left _ hd), hdistinct.of_append_left,
    fun d hd => h.ordered d (List.mem_append_left _ hd), by simp [hx]⟩

theorem Valid.with_label {x : Leaf} {label : Option String} (h : x.Valid)
    (hlabel : ∀ text, label = some text → '\x7b' ∉ text.toList) :
    ({ x with label := label } : Leaf).Valid :=
  ⟨h.names, h.distinct, h.ordered, hlabel⟩

theorem setLabel_element {x : Leaf} {text : String} (hx : x.label = none)
    (hlabel : Element.isLabel text = true) :
    x.element.setLabel text = .ok ({ x with label := some text } : Leaf).element := by
  have hparameter (text : String) :
      ({ x with label := some text } : Leaf).parameter = x.parameter := rfl
  rw [Element.setLabel_eq, if_pos hlabel]
  by_cases hempty : text = "" <;> simp [element, hx, hempty, Option.filter, hparameter]

end Leaf

end Grammar

namespace TokenReader

open Grammar

variable {stop : Nat} {tokens rest : List Token}

theorem run_name_eq_ok_iff {next : Token} :
    (name stop).run tokens = .ok (next, rest) ↔
      tokens = next :: rest ∧ next.kind = .identifier := by
  unfold name
  rw [run_bind_eq_ok_iff]
  constructor
  · rintro ⟨first, middle, htoken, hnext⟩
    rw [run_token_eq_ok_iff] at htoken
    split at hnext
    · next hkind =>
        obtain ⟨rfl, rfl⟩ := run_pure_eq_ok_iff.mp hnext
        exact ⟨htoken, hkind⟩
    · exact absurd hnext run_throw_ne_ok
    · exact absurd hnext run_throw_ne_ok
  · rintro ⟨rfl, hkind⟩
    refine ⟨next, rest, run_token_eq_ok_iff.mpr rfl, ?_⟩
    simp only [hkind]
    exact run_pure_eq_ok_iff.mpr ⟨rfl, rfl⟩

/-- A label is read if the element can have it. -/
theorem run_label_eq_ok_iff {x : Leaf} {e : Element} (hx : x.label = none)
    (hlabels : LabelsTrimmed tokens) :
    (label stop x.element).run tokens = .ok (e, rest) ↔
      ∃ text brace, tokens = text :: brace :: rest ∧ text.kind = .label ∧
        brace.kind = .closeBrace ∧ '\x7b' ∉ text.text.toList ∧
        e = ({ x with label := some text.text } : Leaf).element := by
  unfold label
  constructor
  · intro h
    obtain ⟨text, _, hread, hrun⟩ := run_bind_eq_ok_iff.mp h
    clear h
    obtain ⟨rfl, hkind⟩ := run_ofKind_eq_ok_iff.mp hread
    by_cases htext : Element.isLabel text.text = true
    · rw [Leaf.setLabel_element hx htext] at hrun
      obtain ⟨brace, _, hbrace, hresult⟩ := run_bind_eq_ok_iff.mp hrun
      obtain ⟨rfl, rfl⟩ := run_pure_eq_ok_iff.mp hresult
      obtain ⟨rfl, hclose⟩ := run_ofKind_eq_ok_iff.mp hbrace
      exact ⟨text, brace, rfl, hkind, hclose,
        (isLabel_iff (hlabels text (by simp) hkind)).mp htext, rfl⟩
    · simp only [Element.setLabel_eq, if_neg htext] at hrun
      exact absurd hrun run_throw_ne_ok
  · rintro ⟨text, brace, rfl, hkind, hclose, htext, rfl⟩
    have hlabel := (isLabel_iff (hlabels text (by simp) hkind)).mpr htext
    refine run_bind_eq_ok_iff.mpr ⟨text, _, run_ofKind_eq_ok_iff.mpr ⟨rfl, hkind⟩, ?_⟩
    simp only [Leaf.setLabel_element hx hlabel]
    exact run_bind_eq_ok_iff.mpr ⟨brace, rest, run_ofKind_eq_ok_iff.mpr ⟨rfl, hclose⟩,
      run_pure_eq_ok_iff.mpr ⟨rfl, rfl⟩⟩

/-- A block goes on with a definition, and then comes a comma and the rest of the block, the closing
    brace, or a colon and the label. -/
theorem run_block_succ_eq_ok_iff {x : Leaf} {e : Element} {defined : List String} {remaining : Nat}
    (hx : x.Valid) (hdefined : ∀ name, name ∈ defined ↔ name ∈ x.definitions.map Definition.name) :
    (block stop x.element defined (remaining + 1)).run tokens = .ok (e, rest) ↔
      ∃ taken d separator after, tokens = taken ++ separator :: after ∧ Defines taken d ∧
        (x.define d).Valid ∧
        ((separator.kind = .comma ∧
            (block stop (x.define d).element (d.name :: defined) remaining).run after =
              .ok (e, rest)) ∨
          (separator.kind = .closeBrace ∧ after = rest ∧ e = (x.define d).element) ∨
          (separator.kind = .colon ∧
            (label stop (x.define d).element).run after = .ok (e, rest))) := by
  constructor
  · intro h
    unfold block at h
    obtain ⟨next, _, hname, hafterName⟩ := run_bind_eq_ok_iff.mp h
    obtain ⟨e', _, hdefinition, hafterDefinition⟩ := run_bind_eq_ok_iff.mp hafterName
    obtain ⟨separator, after, hseparator, hrun⟩ := run_bind_eq_ok_iff.mp hafterDefinition
    clear h hafterName hafterDefinition
    obtain ⟨rfl, hnext⟩ := run_name_eq_ok_iff.mp hname
    obtain rfl := run_token_eq_ok_iff.mp hseparator
    have hrest : EndsDefinition (separator :: after) := by
      refine ⟨separator, after, rfl, ?_⟩
      split at hrun
      · next hcomma => exact .inl hcomma
      · next hbrace => exact .inr (.inr hbrace)
      · next hcolon => exact .inr (.inl hcolon)
      · exact absurd hrun run_throw_ne_ok
    obtain ⟨taken, d, p, rfl, hdefines, hp, hfresh, hset⟩ :=
      (run_definition_eq_ok_iff hnext hrest).mp hdefinition
    rw [hdefined] at hfresh
    obtain ⟨hvalid, rfl⟩ := (Leaf.setParameter_element_eq_ok_iff hx hp hfresh).mp hset
    refine ⟨next :: taken, d, separator, after, rfl, hdefines, hvalid, ?_⟩
    have hd : d.name = next.text := by
      cases hdefines with
      | mk => rfl
    split at hrun
    · next hcomma => exact .inl ⟨hcomma, hd ▸ hrun⟩
    · next hbrace =>
        obtain ⟨rfl, rfl⟩ := run_pure_eq_ok_iff.mp hrun
        exact .inr (.inl ⟨hbrace, rfl, rfl⟩)
    · next hcolon => exact .inr (.inr ⟨hcolon, hrun⟩)
    · exact absurd hrun run_throw_ne_ok
  · rintro ⟨taken, d, separator, after, rfl, hdefines, hvalid, hend⟩
    obtain ⟨⟨p, hp⟩, hfresh⟩ := hvalid.of_define
    have hrest : EndsDefinition (separator :: after) := by
      refine ⟨separator, after, rfl, ?_⟩
      obtain ⟨hkind, -⟩ | ⟨hkind, -⟩ | ⟨hkind, -⟩ := hend
      · exact .inl hkind
      · exact .inr (.inr hkind)
      · exact .inr (.inl hkind)
    obtain ⟨next, taken, rfl, hnext, hd⟩ :
        ∃ next tail, taken = next :: tail ∧ next.kind = .identifier ∧ d.name = next.text := by
      cases hdefines with
      | mk hname => exact ⟨_, _, rfl, hname, rfl⟩
    unfold block
    refine run_bind_eq_ok_iff.mpr ⟨next, _, run_name_eq_ok_iff.mpr ⟨rfl, hnext⟩, ?_⟩
    refine run_bind_eq_ok_iff.mpr ⟨(x.define d).element, separator :: after,
      (run_definition_eq_ok_iff hnext hrest).mpr ⟨taken, d, p, rfl, hdefines, hp, ?_, ?_⟩, ?_⟩
    · rwa [hdefined]
    · exact (Leaf.setParameter_element_eq_ok_iff hx hp hfresh).mpr ⟨hvalid, rfl⟩
    · refine run_bind_eq_ok_iff.mpr ⟨separator, after, run_token_eq_ok_iff.mpr rfl, ?_⟩
      obtain ⟨hcomma, hrun⟩ | ⟨hbrace, rfl, rfl⟩ | ⟨hcolon, hrun⟩ := hend
      · simpa only [hcomma, hd] using hrun
      · simp only [hbrace]
        exact run_pure_eq_ok_iff.mpr ⟨rfl, rfl⟩
      · simpa only [hcolon] using hrun

/-- Exactly the rest of a block is read, if the element with its definitions and label is valid. -/
theorem run_block_eq_ok_iff {x : Leaf} {e : Element} {defined : List String} {remaining : Nat}
    (hx : x.Valid) (hlabel : x.label = none) (hlabels : LabelsTrimmed tokens)
    (hdefined : ∀ name, name ∈ defined ↔ name ∈ x.definitions.map Definition.name)
    (hremaining : x.definitions.length + remaining = x.kind.parameters.length) :
    (block stop x.element defined remaining).run tokens = .ok (e, rest) ↔
      ∃ taken definitions text, tokens = taken ++ rest ∧ BlockBody taken definitions text ∧
        (x.extend definitions text).Valid ∧ e = (x.extend definitions text).element := by
  induction remaining generalizing x e defined tokens with
  | zero =>
    -- a definition more would be one more than the kind has parameters
    constructor
    · intro h
      unfold block at h
      obtain ⟨next, _, hname, hrun⟩ := run_bind_eq_ok_iff.mp h
      exact absurd hrun run_throw_ne_ok
    · rintro ⟨taken, definitions, text, rfl, hbody, hvalid, -⟩
      have hlength := hvalid.length_le
      simp only [Leaf.extend, List.length_append] at hlength
      cases hbody <;> simp only [List.length_cons, List.length_nil] at hlength <;> omega
  | succ remaining ih =>
    rw [run_block_succ_eq_ok_iff hx hdefined]
    have hrestLabels {taken after : List Token} {separator : Token}
        (h : LabelsTrimmed (taken ++ separator :: after)) : LabelsTrimmed after :=
      h.of_suffix ((List.suffix_cons _ _).trans (List.suffix_append _ _))
    have hdefined' (d : Definition) (name : String) :
        name ∈ d.name :: defined ↔ name ∈ (x.define d).definitions.map Definition.name := by
      simp [Leaf.define, hdefined, or_comm]
    have hremaining' (d : Definition) :
        (x.define d).definitions.length + remaining = (x.define d).kind.parameters.length := by
      simp only [Leaf.define, List.length_append, List.length_cons, List.length_nil]
      omega
    constructor
    · rintro ⟨taken, d, separator, after, rfl, hdefines, hvalid, hend⟩
      obtain ⟨hcomma, hrun⟩ | ⟨hbrace, rfl, rfl⟩ | ⟨hcolon, hrun⟩ := hend
      · obtain ⟨taken', definitions, text, rfl, hbody, hvalid', rfl⟩ :=
          (ih hvalid hlabel (hrestLabels hlabels) (hdefined' d) (hremaining' d)).mp hrun
        rw [← Leaf.extend_cons] at hvalid' ⊢
        exact ⟨_, _, _, by simp, .cons hdefines hcomma hbody, hvalid', rfl⟩
      · rw [← Leaf.extend_singleton_none hlabel] at hvalid ⊢
        exact ⟨_, _, _, by simp, .last hdefines (.bare hbrace), hvalid, rfl⟩
      · obtain ⟨text, brace, rfl, htext, hbrace, hopen, rfl⟩ :=
          (run_label_eq_ok_iff (x := x.define d) hlabel (hrestLabels hlabels)).mp hrun
        refine ⟨_, _, _, by simp, .last hdefines (.label hcolon htext hbrace), ?_, rfl⟩
        exact hvalid.with_label fun _ h => Option.some.inj h ▸ hopen
    · rintro ⟨taken, definitions, text, rfl, hbody, hvalid, rfl⟩
      cases hbody with
      | @cons taken after comma d definitions _ hdefines hcomma hrest =>
        simp only [Leaf.extend_cons] at hvalid ⊢
        have hvalid' := hvalid.of_extend hlabel
        refine ⟨taken, d, comma, after ++ rest, by simp, hdefines, hvalid', .inl ⟨hcomma, ?_⟩⟩
        refine (ih hvalid' hlabel ?_ (hdefined' d) (hremaining' d)).mpr
          ⟨after, definitions, text, rfl, hrest, hvalid, rfl⟩
        exact hrestLabels (by simpa using hlabels)
      | @last taken close d _ hdefines hclose =>
        have hvalid' : (x.define d).Valid := by
          rw [Leaf.extend_cons] at hvalid
          exact hvalid.of_extend hlabel
        cases hclose with
        | @bare brace hbrace =>
          rw [Leaf.extend_singleton_none hlabel]
          exact ⟨taken, d, brace, rest, by simp, hdefines, hvalid', .inr (.inl ⟨hbrace, rfl, rfl⟩)⟩
        | @label colon text brace hcolon htext hbrace =>
          refine ⟨taken, d, colon, text :: brace :: rest, by simp, hdefines, hvalid',
            .inr (.inr ⟨hcolon, ?_⟩)⟩
          refine (run_label_eq_ok_iff (x := x.define d) hlabel ?_).mpr
            ⟨text, brace, rfl, htext, hbrace, hvalid.label _ rfl, rfl⟩
          exact hrestLabels (by simpa using hlabels)

end TokenReader

end CircuitCode
