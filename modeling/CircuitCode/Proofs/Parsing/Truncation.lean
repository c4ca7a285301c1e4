import CircuitCode.Proofs.Parsing.Closed
import CircuitCode.Proofs.Parsing.Definition
import CircuitCode.Proofs.Parsing.Exactness
import CircuitCode.Proofs.Parsing.Places

/-!
# Circuit code that ends too early

What the parser makes of the first tokens of circuit code that it accepts (`Cropped`). If they end
where a number is to follow, it misses this number. Otherwise it misses more tokens, unless they
make up a circuit already or end in a definition whose value the kind's own limits do not allow: a
definition is checked before it shows that the block is not complete.
-/

namespace CircuitCode

open Grammar

/-- Of two ways to split a list, one splits it in the first part of the other, or within the second
    part. -/
theorem append_eq_append_cases {α : Type} {first second before after : List α}
    (h : first ++ second = before ++ after) :
    (∃ more, first = before ++ more ∧ after = more ++ second) ∨
      ∃ a more, before = first ++ a :: more ∧ second = a :: more ++ after := by
  rcases List.append_eq_append_iff.mp h with ⟨more, rfl, rfl⟩ | ⟨more, rfl, rfl⟩
  · cases more with
    | nil => exact .inl ⟨[], by simp, rfl⟩
    | cons a more => exact .inr ⟨a, more, rfl, rfl⟩
  · exact .inl ⟨more, rfl, rfl⟩

/-- A number is to follow the last token, which is an equals sign or a slash. -/
def EndsOpen (tokens : List Token) : Prop :=
  ∃ last ∈ tokens.getLast?, last.kind = .equals ∨ last.kind = .slash

theorem not_endsOpen_nil : ¬ EndsOpen [] := nofun

theorem endsOpen_append (tokens : List Token) {tokens' : List Token} (hne : tokens' ≠ []) :
    EndsOpen (tokens ++ tokens') ↔ EndsOpen tokens' := by
  unfold EndsOpen
  rw [List.getLast?_append_of_ne_nil _ hne]

theorem endsOpen_append_singleton {tokens : List Token} {last : Token} :
    EndsOpen (tokens ++ [last]) ↔ last.kind = .equals ∨ last.kind = .slash := by
  rw [endsOpen_append _ (by simp)]
  simp [EndsOpen]

theorem endsOpen_append_of_not {tokens tokens' : List Token} (h : ¬ EndsOpen tokens) :
    EndsOpen (tokens ++ tokens') ↔ EndsOpen tokens' := by
  by_cases hne : tokens' = []
  · subst hne
    rw [List.append_nil]
    exact iff_of_false h not_endsOpen_nil
  · exact endsOpen_append _ hne

namespace Grammar

/-- A definition ends with a number or with the mark of a fixed parameter. -/
theorem Defines.exists_getLast? {tokens : List Token} {d : Definition} (h : Defines tokens d) :
    ∃ last, tokens.getLast? = some last ∧ (last.kind = .number ∨ last.kind = .identifier) := by
  cases h with
  | @mk name equals number _ _ _ _ _ _ hname hequals hnumber hlimits hflag =>
    cases hflag with
    | @present flag hkind => exact ⟨flag, by simp [List.getLast?_cons], .inr hkind⟩
    | absent =>
      cases hlimits with
      | none => exact ⟨number, rfl, .inl hnumber.1⟩
      | lower _ hlower => exact ⟨_, rfl, .inl hlower.1⟩
      | both _ _ _ hupper => exact ⟨_, rfl, .inl hupper.1⟩
      | upper _ _ hupper => exact ⟨_, rfl, .inl hupper.1⟩

/-- No number is to follow a definition. -/
theorem Defines.not_endsOpen {tokens : List Token} {d : Definition} (h : Defines tokens d) :
    ¬ EndsOpen tokens := by
  obtain ⟨last, hlast, hkind⟩ := h.exists_getLast?
  rintro ⟨last', hlast', hopen⟩
  obtain rfl : last = last' := Option.some.inj (hlast.symm.trans hlast')
  rcases hkind with hkind | hkind <;> simp [hkind] at hopen

/-- The start of a definition. Limits of it may be missing, and so may the mark of a fixed
    parameter. -/
structure Definition.Starts (short full : Definition) : Prop where
  name : short.name = full.name
  value : short.value = full.value
  lower : short.lower = none ∨ short.lower = full.lower
  upper : short.upper = none ∨ short.upper = full.upper

end Grammar

/-- The tokens `before` end in a definition that starts with `name`, and the tokens `after` go on
    with it. -/
structure EndsIn (before after : List Token) (name : Token) (short full : Definition) : Prop where
  exists_tokens : ∃ init taken more rest, before = init ++ name :: taken ∧ after = more ++ rest ∧
    Defines (name :: taken) short ∧ Defines (name :: (taken ++ more)) full

/-- The tokens `before` end in a definition whose value is not within a limit of the kind. The
    tokens `after` give another limit, which is missing. -/
inductive MissesLimit (before after : List Token) : ParseError → Prop where
  | lower {name : Token} {short full : Definition} {kind : ElementKind} {p : ParameterDefinition}
      (hends : EndsIn before after name short full) (hp : kind.parameter? full.name = some p)
      (hmissing : short.lower = none) (hgiven : full.lower ≠ none) (hlt : full.value < p.lower) :
      MissesLimit before after (.lowerLimit name.position full.name full.value p.lower)
  | upper {name : Token} {short full : Definition} {kind : ElementKind} {p : ParameterDefinition}
      (hends : EndsIn before after name short full) (hp : kind.parameter? full.name = some p)
      (hmissing : short.upper = none) (hgiven : full.upper ≠ none) (hlt : p.upper < full.value) :
      MissesLimit before after (.upperLimit name.position full.name full.value p.upper)

/-- What may be made of the tokens `before` alone where `after` would have to follow. -/
inductive Cropped {α : Type} (stop : Nat) (before after : List Token) :
    Except ParseError α → Prop where
  | ok {a : α} (hends : ¬ EndsOpen before) : Cropped stop before after (.ok a)
  | number (hends : EndsOpen before) :
      Cropped stop before after (.error (.expectedNumber stop none))
  | tokens {context : ParseContext} (hends : ¬ EndsOpen before) :
      Cropped stop before after (.error (.insufficientTokens stop context))
  | limit {e : ParseError} (hends : ¬ EndsOpen before) (h : MissesLimit before after e) :
      Cropped stop before after (.error e)

section Extend

variable {α β : Type} {stop : Nat} {before after : List Token} {e : ParseError}

theorem EndsIn.extend {name : Token} {short full : Definition}
    (h : EndsIn before after name short full) (first more : List Token) :
    EndsIn (first ++ before) (after ++ more) name short full := by
  obtain ⟨init, taken, rest, rest', rfl, rfl, hshort, hfull⟩ := h.exists_tokens
  exact ⟨first ++ init, taken, rest, rest' ++ more, by simp, by simp, hshort, hfull⟩

theorem MissesLimit.extend (h : MissesLimit before after e) (first more : List Token) :
    MissesLimit (first ++ before) (after ++ more) e := by
  cases h with
  | lower hends hp hmissing hgiven hlt =>
    exact .lower (hends.extend first more) hp hmissing hgiven hlt
  | upper hends hp hmissing hgiven hlt =>
    exact .upper (hends.extend first more) hp hmissing hgiven hlt

theorem MissesLimit.exists_getLast? (h : MissesLimit before after e) :
    ∃ last, before.getLast? = some last ∧ (last.kind = .number ∨ last.kind = .identifier) := by
  have hends {name : Token} {short full : Definition} (h : EndsIn before after name short full) :
      ∃ last, before.getLast? = some last ∧ (last.kind = .number ∨ last.kind = .identifier) := by
    obtain ⟨init, taken, rest, rest', rfl, -, hshort, -⟩ := h.exists_tokens
    rw [List.getLast?_append_of_ne_nil _ (List.cons_ne_nil _ _)]
    exact hshort.exists_getLast?
  cases h with
  | lower h => exact hends h
  | upper h => exact hends h

/-- More tokens may stand before and behind. -/
theorem Cropped.extend {result : Except ParseError α} (h : Cropped stop before after result)
    {first : List Token} (hfirst : ¬ EndsOpen first) (more : List Token) :
    Cropped stop (first ++ before) (after ++ more) result := by
  have hiff : EndsOpen (first ++ before) ↔ EndsOpen before := endsOpen_append_of_not hfirst
  cases h with
  | ok hends => exact .ok (hiff.not.mpr hends)
  | number hends => exact .number (hiff.mpr hends)
  | tokens hends => exact .tokens (hiff.not.mpr hends)
  | limit hends h => exact .limit (hiff.not.mpr hends) (h.extend first more)

theorem Cropped.error (h : Cropped stop before after (.error e : Except ParseError α)) :
    Cropped stop before after (.error e : Except ParseError β) := by
  cases h with
  | number hends => exact .number hends
  | tokens hends => exact .tokens hends
  | limit hends h => exact .limit hends h

end Extend

namespace TokenReader

variable {stop : Nat} {p : ParameterDefinition} {slash : Token} {tokens rest : List Token}

theorem run_upperLimit_of_end (hslash : slash.kind = .slash) :
    (upperLimit stop p).run [slash] = .error (.expectedNumber stop none) :=
  run_upperLimit_of_slash hslash

end TokenReader

namespace Grammar

open TokenReader

/-- The start of limits and a flag is the same, or ends with a slash. -/
theorem crop_limits {limits flag taken more : List Token} {lower upper : Option Number}
    {fixed : Bool} (hlimits : Limits limits lower upper) (hflag : Flag flag fixed)
    (h : limits ++ flag = taken ++ more) :
    (EndsOpen taken ∧ ∀ stop p,
        (TokenReader.limits stop p).run taken = .error (.expectedNumber stop none)) ∨
      ∃ limits' flag' lower' upper' fixed', taken = limits' ++ flag' ∧
        Limits limits' lower' upper' ∧ Flag flag' fixed' ∧ (lower' = none ∨ lower' = lower) ∧
        (upper' = none ∨ upper' = upper) := by
  rcases List.append_eq_append_iff.mp h with ⟨rest, rfl, hrest⟩ | ⟨rest, rfl, -⟩
  · refine .inr ⟨limits, rest, lower, upper, ?_⟩
    cases hflag with
    | absent =>
      obtain ⟨rfl, -⟩ := List.append_eq_nil_iff.mp hrest.symm
      exact ⟨false, rfl, hlimits, .absent, .inr rfl, .inr rfl⟩
    | @present token hkind htext =>
      cases rest with
      | nil => exact ⟨false, rfl, hlimits, .absent, .inr rfl, .inr rfl⟩
      | cons flag rest =>
        obtain ⟨rfl, hnil⟩ := List.cons.inj hrest
        obtain ⟨rfl, -⟩ := List.append_eq_nil_iff.mp hnil.symm
        exact ⟨true, rfl, hlimits, .present hkind htext, .inr rfl, .inr rfl⟩
  · have hempty : ∃ limits' flag' lower' upper' fixed', ([] : List Token) = limits' ++ flag' ∧
        Limits limits' lower' upper' ∧ Flag flag' fixed' ∧ (lower' = none ∨ lower' = lower) ∧
        (upper' = none ∨ upper' = upper) :=
      ⟨[], [], none, none, false, rfl, .none, .absent, .inl rfl, .inl rfl⟩
    have hopen {slash : Token} (tokens : List Token) (hslash : slash.kind = .slash) :
        EndsOpen (tokens ++ [slash]) := endsOpen_append_singleton.mpr (.inr hslash)
    generalize hlimits' : taken ++ rest = limits at hlimits
    cases hlimits with
    | none =>
      obtain ⟨rfl, -⟩ := List.append_eq_nil_iff.mp hlimits'
      exact .inr hempty
    | lower hslash hnumber =>
      simp only [List.append_eq_cons_iff, List.cons_eq_append_iff, List.append_eq_nil_iff,
        List.nil_eq] at hlimits'
      obtain ⟨rfl, -⟩ | ⟨taken, rfl, ⟨rfl, -⟩ | ⟨taken, rfl, rfl, -⟩⟩ := hlimits'
      · exact .inr hempty
      · exact .inl ⟨hopen [] hslash, fun stop p => run_limits_of_slash hslash⟩
      · exact .inr ⟨_, [], _, none, false, rfl, .lower hslash hnumber, .absent, .inr rfl, .inl rfl⟩
    | both hslash hlower hslash' hupper =>
      simp only [List.append_eq_cons_iff, List.cons_eq_append_iff, List.append_eq_nil_iff,
        List.nil_eq] at hlimits'
      obtain ⟨rfl, -⟩ | ⟨taken, rfl, ⟨rfl, -⟩ | ⟨taken, rfl, ⟨rfl, -⟩ |
        ⟨taken, rfl, ⟨rfl, -⟩ | ⟨taken, rfl, rfl, -⟩⟩⟩⟩ := hlimits'
      · exact .inr hempty
      · exact .inl ⟨hopen [] hslash, fun stop p => run_limits_of_slash hslash⟩
      · exact .inr ⟨_, [], _, none, false, rfl, .lower hslash hlower, .absent, .inr rfl, .inl rfl⟩
      · refine .inl ⟨hopen [_, _] hslash', fun stop p => ?_⟩
        exact run_limits_of_upperLimit_error hslash
          (run_lowerLimit_eq_ok_iff.mpr (.inr ⟨_, rfl, hlower⟩)) (run_upperLimit_of_end hslash')
      · exact .inr ⟨_, [], _, _, false, rfl, .both hslash hlower hslash' hupper, .absent, .inr rfl,
          .inr rfl⟩
    | upper hslash hslash' hnumber =>
      simp only [List.append_eq_cons_iff, List.cons_eq_append_iff, List.append_eq_nil_iff,
        List.nil_eq] at hlimits'
      obtain ⟨rfl, -⟩ | ⟨taken, rfl, ⟨rfl, -⟩ | ⟨taken, rfl, ⟨rfl, -⟩ | ⟨taken, rfl, rfl, -⟩⟩⟩ :=
        hlimits'
      · exact .inr hempty
      · exact .inl ⟨hopen [] hslash, fun stop p => run_limits_of_slash hslash⟩
      · refine .inl ⟨hopen [_] hslash', fun stop p => ?_⟩
        refine run_limits_of_upperLimit_error hslash
          (run_lowerLimit_eq_ok_iff.mpr (.inl ⟨rfl, ?_, rfl⟩)) (run_upperLimit_of_end hslash')
        simp [isSlash, hslash']
      · exact .inr ⟨_, [], none, _, false, rfl, .upper hslash hslash' hnumber, .absent, .inr rfl,
          .inr rfl⟩

/-- The start of a definition is a definition, unless it is only the name or ends where a number
    is to follow. -/
theorem Defines.crop {name : Token} {taken more : List Token} {d : Definition}
    (h : Defines (name :: (taken ++ more)) d) :
    taken = [] ∨
      (EndsOpen taken ∧ ∀ stop e p position,
        (assignment stop e p position).run taken = .error (.expectedNumber stop none)) ∨
      ∃ short, Defines (name :: taken) short ∧ short.Starts d := by
  generalize htokens : taken ++ more = tokens at h
  cases h with
  | @mk _ equals number limits flag value lower upper fixed hname hequals hnumber hlimits hflag =>
    simp only [List.append_eq_cons_iff] at htokens
    obtain ⟨rfl, -⟩ | ⟨taken, rfl, htokens⟩ := htokens
    · exact .inl rfl
    have hread (stop : Nat) (tokens : List Token) :
        (ofKind stop .equals .parameterDefinition).run (equals :: tokens) = .ok (equals, tokens) :=
      run_ofKind_eq_ok_iff.mpr ⟨rfl, hequals⟩
    simp only [List.cons_eq_append_iff] at htokens
    obtain ⟨rfl, -⟩ | ⟨taken, rfl, htokens⟩ := htokens
    · refine .inr (.inl ⟨⟨equals, rfl, .inl hequals⟩, fun stop e p position => ?_⟩)
      unfold assignment
      rw [run_bind_of_ok (hread stop [])]
      rfl
    obtain ⟨hopen, hrun⟩ | ⟨limits', flag', lower', upper', fixed', rfl, hlimits', hflag', hlower,
        hupper⟩ := crop_limits hlimits hflag htokens
    · have hne : taken ≠ [] := by
        rintro rfl
        exact not_endsOpen_nil hopen
      refine .inr (.inl ⟨?_, fun stop e p position => ?_⟩)
      · exact (endsOpen_append [equals, number] hne).mpr hopen
      · unfold assignment
        rw [run_bind_of_ok (hread stop _),
          run_bind_of_ok (run_number_eq_ok_iff.mpr ⟨number, rfl, hnumber⟩),
          run_bind_of_error (hrun stop p)]
    · exact .inr (.inr ⟨⟨name.text, value, lower', upper', fixed'⟩,
        .mk hname hequals hnumber hlimits' hflag', rfl, rfl, hlower, hupper⟩)

end Grammar

namespace TokenReader

variable {stop : Nat} {before after : List Token}

/-- From the tokens `before` a reader fails as it may where `after` would have to follow. -/
def RunsOut (stop : Nat) (before after : List Token) (reader : TokenReader Element) : Prop :=
  ∃ e, reader.run before = .error e ∧
    Cropped stop before after (.error e : Except ParseError Element)

variable {x : Leaf} {defined : List String} {remaining : Nat} {name : Token}
  {taken more : List Token} {d : Definition}

/-- A definition that is only started is refused for the limit that takes the place of one that is
    missing. -/
theorem missesLimit_of_starts {short : Definition} {p : ParameterDefinition}
    (hshort : Defines (name :: taken) short) (hfull : Defines (name :: (taken ++ more)) d)
    (hstarts : short.Starts d) (hp : x.kind.parameter? d.name = some p)
    (hordered : d.lower.getD p.lower ≤ d.value ∧ d.value ≤ d.upper.getD p.upper)
    (hrefused : ¬ (short.lower.getD p.lower ≤ short.value ∧
      short.value ≤ short.upper.getD p.upper)) :
    MissesLimit (name :: taken) more (.ofLimits name.position short.name short.value
      (short.lower.getD p.lower) (short.upper.getD p.upper)) := by
  obtain ⟨hmem, -⟩ := ElementKind.parameter?_eq_some_iff.mp hp
  obtain ⟨hvalue, hlower, hupper⟩ := hshort.isNaN hmem
  have hends : EndsIn (name :: taken) more name short d :=
    ⟨[], taken, more, [], rfl, by simp, hshort, hfull⟩
  rw [hstarts.name]
  unfold ParseError.ofLimits
  split
  · next hlt =>
    have hne : short.lower ≠ d.lower := by
      intro heq
      rw [heq, hstarts.value] at hlt
      rw [heq] at hlower
      rw [hstarts.value] at hvalue
      exact (Number.not_lt_iff hvalue hlower).mpr hordered.1 hlt
    have hmissing := hstarts.lower.resolve_right hne
    rw [hmissing, Option.getD_none, hstarts.value] at hlt ⊢
    exact .lower hends hp hmissing (fun hnone => hne (hmissing.trans hnone.symm)) hlt
  · next hge =>
    have hle := (Number.not_lt_iff hvalue hlower).mp hge
    have hlt : short.upper.getD p.upper < short.value := by
      by_contra hnot
      exact hrefused ⟨hle, (Number.not_lt_iff hupper hvalue).mp hnot⟩
    have hne : short.upper ≠ d.upper := by
      intro heq
      rw [heq, hstarts.value] at hlt
      rw [heq] at hupper
      rw [hstarts.value] at hvalue
      exact (Number.not_lt_iff hupper hvalue).mpr hordered.2 hlt
    have hmissing := hstarts.upper.resolve_right hne
    rw [hmissing, Option.getD_none, hstarts.value] at hlt ⊢
    exact .upper hends hp hmissing (fun hnone => hne (hmissing.trans hnone.symm)) hlt

/-- A block that ends in a definition or right after one. -/
theorem runsOut_block_of_definition (hfull : Defines (name :: (taken ++ more)) d) (hx : x.Valid)
    (hdefined : ∀ name, name ∈ defined ↔ name ∈ x.definitions.map Definition.name)
    (hvalid : (x.define d).Valid) :
    RunsOut stop (name :: taken) more (block stop x.element defined (remaining + 1)) := by
  obtain ⟨⟨p, hp⟩, hfresh⟩ := hvalid.of_define
  have hname : d.name = name.text := hfull.name_eq
  have hkind : name.kind = .identifier := hfull.name_kind
  have hnotOpen : ¬ EndsOpen [name] := by simp [EndsOpen, hkind]
  have hassignment : (definition stop x.element defined name).run taken =
      (assignment stop x.element p name.position).run taken := by
    unfold definition
    have hp' : x.element.kind.parameter? name.text = some p := hname ▸ hp
    have hfresh' : name.text ∉ defined := by rwa [hdefined, ← hname]
    simp only [hp', if_neg hfresh']
  rcases hfull.crop with rfl | ⟨hopen, hrun⟩ | ⟨short, hshort, hstarts⟩
  · refine ⟨.insufficientTokens stop .parameterDefinition,
      run_block_of_definition_error hkind ?_, .tokens hnotOpen⟩
    rw [hassignment]
    rfl
  · have hne : taken ≠ [] := by
      rintro rfl
      exact not_endsOpen_nil hopen
    refine ⟨.expectedNumber stop none, run_block_of_definition_error hkind ?_,
      .number ((endsOpen_append [name] hne).mpr hopen)⟩
    rw [hassignment, hrun]
  · have hp' : x.kind.parameter? short.name = some p := hstarts.name ▸ hp
    have hfresh' : short.name ∉ x.definitions.map Definition.name := hstarts.name ▸ hfresh
    by_cases hshortValid : (x.define short).Valid
    · have hread : (definition stop x.element defined name).run taken =
          .ok ((x.define short).element, []) := by
        rw [← List.append_nil taken]
        exact run_definition_of_valid hshort .nil hx hdefined hshortValid
      exact ⟨_, run_block_of_end hkind hread, .tokens hshort.not_endsOpen⟩
    · have hread : (definition stop x.element defined name).run taken =
          .error (.ofLimits name.position short.name short.value (short.lower.getD p.lower)
            (short.upper.getD p.upper)) := by
        rw [← List.append_nil taken]
        exact run_definition_of_not_valid hshort .nil hx hdefined hp' hfresh' hshortValid
      have hordered := (Leaf.valid_define_iff hx hp hfresh).mp hvalid
      have hrefused := (Leaf.valid_define_iff hx hp' hfresh').not.mp hshortValid
      exact ⟨_, run_block_of_definition_error hkind hread, .limit hshort.not_endsOpen
        (missesLimit_of_starts hshort hfull hstarts hp hordered hrefused)⟩

theorem RunsOut.extend {reader reader' : TokenReader Element} (h : RunsOut stop before after reader)
    {first : List Token} (hfirst : ¬ EndsOpen first)
    (hrun : reader'.run (first ++ before) = reader.run before) :
    RunsOut stop (first ++ before) after reader' := by
  obtain ⟨e, he, hcropped⟩ := h
  have hextended := hcropped.extend hfirst []
  rw [List.append_nil] at hextended
  exact ⟨e, hrun.trans he, hextended⟩

theorem RunsOut.append {reader : TokenReader Element} (h : RunsOut stop before after reader)
    (more : List Token) : RunsOut stop before (after ++ more) reader := by
  obtain ⟨e, he, hcropped⟩ := h
  exact ⟨e, he, hcropped.extend not_endsOpen_nil more⟩

theorem runsOut_block_nil :
    RunsOut stop [] after (block stop x.element defined remaining) := by
  refine ⟨.insufficientTokens stop .parameterDefinition, ?_, .tokens not_endsOpen_nil⟩
  cases remaining with
  | zero => rfl
  | succ remaining => rfl

/-- A block that ends within its first definition or right after it. -/
theorem runsOut_block_within (hfull : Defines (before ++ more) d) (hx : x.Valid)
    (hdefined : ∀ name, name ∈ defined ↔ name ∈ x.definitions.map Definition.name)
    (hvalid : (x.define d).Valid) :
    RunsOut stop before more (block stop x.element defined (remaining + 1)) := by
  cases before with
  | nil => exact runsOut_block_nil
  | cons name taken => exact runsOut_block_of_definition hfull hx hdefined hvalid

/-- A block that ends within its label or right after it. -/
theorem runsOut_block_of_label {first second : Token} (hdefinition : Defines taken d)
    (hx : x.Valid) (hlabel : x.label = none)
    (hdefined : ∀ name, name ∈ defined ↔ name ∈ x.definitions.map Definition.name)
    (hvalid : (x.define d).Valid) (hcolon : first.kind = .colon) (htext : second.kind = .label)
    (hisLabel : Element.isLabel second.text = true) :
    RunsOut stop (taken ++ [first]) after (block stop x.element defined (remaining + 1)) ∧
      RunsOut stop (taken ++ [first, second]) after
        (block stop x.element defined (remaining + 1)) := by
  obtain ⟨name, taken, rfl⟩ : ∃ name rest, taken = name :: rest := by
    cases hdefinition with
    | mk => exact ⟨_, _, rfl⟩
  have hends (rest : List Token) : DefinitionEnds (first :: rest) := by
    simp [DefinitionEnds, isSlash, isFixedFlag, hcolon]
  have hread (rest : List Token) :
      (block stop x.element defined (remaining + 1)).run (name :: (taken ++ first :: rest)) =
        (label stop (x.define d).element).run rest :=
    run_block_of_colon hdefinition.name_kind
      (run_definition_of_valid hdefinition (hends rest).endsBefore hx hdefined hvalid) hcolon
  refine ⟨⟨.insufficientTokens stop .parameterBlock, (hread []).trans rfl, .tokens ?_⟩,
    ⟨.insufficientTokens stop .parameterBlock, (hread [second]).trans ?_, .tokens ?_⟩⟩
  · rw [endsOpen_append_singleton, hcolon]
    decide
  · have hset := Leaf.setLabel_element (x := x.define d) hlabel hisLabel
    unfold label
    rw [run_bind_of_ok (run_ofKind_eq_ok_iff.mpr ⟨rfl, htext⟩), hset]
    rfl
  · rw [List.append_cons, endsOpen_append_singleton, htext]
    decide

/-- A block that ends too early runs out of tokens. The induction is on its definitions. -/
theorem runsOut_block {definitions : List Definition} {label : Option String}
    {tokens : List Token} (h : BlockBody tokens definitions label)
    (htokens : tokens = before ++ after) (hafter : after ≠ []) (hx : x.Valid)
    (hlabel : x.label = none) (hlabels : LabelsTrimmed tokens)
    (hdefined : ∀ name, name ∈ defined ↔ name ∈ x.definitions.map Definition.name)
    (hremaining : x.definitions.length + remaining = x.kind.parameters.length)
    (hvalid : (x.extend definitions label).Valid) :
    RunsOut stop before after (block stop x.element defined remaining) := by
  induction h generalizing x defined remaining before with
  | @last taken close d label hdefinition hclose =>
    have hlength := hvalid.length_le
    simp only [Leaf.extend, List.length_append, List.length_cons] at hlength
    obtain ⟨n, rfl⟩ := Nat.exists_eq_succ_of_ne_zero (n := remaining) (by omega)
    have hvalid' : (x.define d).Valid := by
      rw [Leaf.extend_cons] at hvalid
      exact hvalid.of_extend hlabel
    rcases append_eq_append_cases htokens with ⟨more, rfl, rfl⟩ | ⟨first, more, rfl, hrest⟩
    · exact (runsOut_block_within hdefinition hx hdefined hvalid').append close
    · cases hclose with
      | bare hbrace => simp [hafter] at hrest
      | @label colon text brace hcolon htext hbrace =>
        have hisLabel : Element.isLabel text.text = true :=
          (isLabel_iff (hlabels text (by simp) htext)).mpr (hvalid.label _ rfl)
        obtain ⟨rfl, hmore⟩ := List.cons.inj hrest
        obtain ⟨hfirst, hsecond⟩ :=
          runsOut_block_of_label hdefinition hx hlabel hdefined hvalid' hcolon htext hisLabel
        cases more with
        | nil => exact hfirst
        | cons second more =>
          obtain ⟨rfl, hlast⟩ := List.cons.inj hmore
          cases more with
          | nil => exact hsecond
          | cons third more => simp [hafter] at hlast
  | @cons taken tokens comma d definitions label hdefinition hcomma hrest ih =>
    have hlength := hvalid.length_le
    simp only [Leaf.extend, List.length_append, List.length_cons] at hlength
    obtain ⟨n, rfl⟩ := Nat.exists_eq_succ_of_ne_zero (n := remaining) (by omega)
    rw [Leaf.extend_cons] at hvalid
    have hvalid' : (x.define d).Valid := hvalid.of_extend hlabel
    rcases append_eq_append_cases htokens with ⟨more, rfl, rfl⟩ | ⟨first, more, rfl, hrest'⟩
    · exact (runsOut_block_within hdefinition hx hdefined hvalid').append _
    · obtain ⟨rfl, rfl⟩ := List.cons.inj hrest'
      obtain ⟨name, taken, rfl⟩ : ∃ name rest, taken = name :: rest := by
        cases hdefinition with
        | mk => exact ⟨_, _, rfl⟩
      have hends : DefinitionEnds (comma :: more) := by
        simp [DefinitionEnds, isSlash, isFixedFlag, hcomma]
      have hread : (block stop x.element defined (n + 1)).run (name :: (taken ++ comma :: more)) =
          (block stop (x.define d).element (d.name :: defined) n).run more := by
        rw [hdefinition.name_eq]
        exact run_block_of_comma hdefinition.name_kind
          (run_definition_of_valid hdefinition hends.endsBefore hx hdefined hvalid') hcomma
      have hothers : RunsOut stop more after
          (block stop (x.define d).element (d.name :: defined) n) :=
        ih rfl hvalid' hlabel
          (hlabels.of_suffix ((List.suffix_cons _ _).trans (List.suffix_append _ _)))
          (fun name => by simp [Leaf.define, hdefined, or_comm])
          (by simp only [Leaf.define, List.length_append, List.length_singleton]; omega) hvalid
      rw [List.append_cons]
      refine hothers.extend ?_ (by simpa using hread)
      rw [endsOpen_append_singleton, hcomma]
      decide

end TokenReader

namespace Grammar

theorem not_endsOpen_bracket {token : Token} {kind : ConnectionKind}
    (h : token.kind = (bracketKinds kind).1 ∨ token.kind = (bracketKinds kind).2) :
    ¬ EndsOpen [token] := by
  rcases h with h | h <;> cases kind <;> simp [EndsOpen, h, bracketKinds]

/-- No number is to follow a node. -/
theorem DerivesNode.not_endsOpen {tokens : List Token} {node : Node Leaf}
    (h : DerivesNode tokens node) : ¬ EndsOpen tokens := by
  cases h with
  | element hsymbol _ hblock =>
    cases hblock with
    | absent => simp [EndsOpen, hsymbol]
    | present _ hbody =>
      obtain ⟨-, brace, hlast, hbrace⟩ := hbody.closes
      simp [EndsOpen, List.getLast?_cons, hlast, hbrace]
  | connection _ _ _ hclosing =>
    rw [← List.cons_append, endsOpen_append _ (by simp)]
    exact not_endsOpen_bracket (.inr hclosing)

end Grammar

namespace Items

variable {stop : Nat} {before after : List Token}

/-- Nothing is missed where no token was taken, apart from a bracket that closes what is open. -/
theorem cropped_parseFrom_nil (outer : List OpenConnection) (nodes : List (Node Element)) :
    Cropped stop [] after (parseFrom stop outer nodes []) := by
  cases outer with
  | nil =>
    rw [parseFrom_nil]
    exact .ok not_endsOpen_nil
  | cons inner outer =>
    simp only [parseFrom, ofTokens, join]
    exact .tokens not_endsOpen_nil

/-- A whole node leaves the machine where it may be at the end of the tokens. -/
theorem cropped_parseFrom_derived {node : Node Leaf} (h : DerivesNode before node)
    (hvalid : ∀ x ∈ node.leaves, x.Valid) (hlabels : LabelsTrimmed before)
    (outer : List OpenConnection) (nodes : List (Node Element)) :
    Cropped stop before after (parseFrom stop outer nodes before) := by
  have hnode : parseFrom stop outer nodes (before ++ []) =
      parseFrom stop outer (nodes ++ [tree node]) [] :=
    parseFrom_node h hvalid outer nodes [] (by simpa using hlabels) rfl
  have hnil : Cropped stop [] [] (parseFrom stop outer (nodes ++ [tree node]) []) :=
    cropped_parseFrom_nil outer _
  rw [List.append_nil] at hnode
  rw [hnode]
  simpa using hnil.extend h.not_endsOpen after

/-- A block that runs out of tokens makes the machine do so. -/
theorem cropped_parseFrom_block {symbol brace : Token} {kind : ElementKind}
    (hsymbol : symbol.kind = .symbol) (hkind : ElementKind.ofSymbol? symbol.text = some kind)
    (hbrace : brace.kind = .openBrace)
    (h : TokenReader.RunsOut stop before after
      (TokenReader.block stop (.ofKind kind) [] kind.parameters.length))
    (outer : List OpenConnection) (nodes : List (Node Element)) :
    Cropped stop (symbol :: brace :: before) after
      (parseFrom stop outer nodes (symbol :: brace :: before)) := by
  obtain ⟨e, he, hcropped⟩ := h
  have hfail : parseFrom stop outer nodes (symbol :: brace :: before) = .error e :=
    parseFrom_of_block_error hsymbol hkind hbrace he
  have hnotOpen : ¬ EndsOpen [symbol, brace] := by simp [EndsOpen, hbrace]
  rw [hfail]
  simpa using (hcropped.extend hnotOpen []).error

mutual

/-- What the machine makes of the start of a node. -/
theorem cropped_parseFrom_node {tokens : List Token} {node : Node Leaf}
    (h : DerivesNode tokens node) (hvalid : ∀ x ∈ node.leaves, x.Valid)
    (hlabels : LabelsTrimmed tokens) {before after : List Token}
    (htokens : tokens = before ++ after) (outer : List OpenConnection)
    (nodes : List (Node Element)) :
    Cropped stop before after (parseFrom stop outer nodes before) := by
  by_cases hbefore : before = []
  · subst hbefore
    exact cropped_parseFrom_nil outer nodes
  by_cases hafter : after = []
  · subst hafter
    rw [List.append_nil] at htokens
    subst htokens
    exact cropped_parseFrom_derived h hvalid hlabels outer nodes
  obtain ⟨first, before, rfl⟩ := List.exists_cons_of_ne_nil hbefore
  cases h with
  | @element symbol kind block definitions label hsymbol hkind hblock =>
    obtain ⟨rfl, hrest⟩ := List.cons.inj htokens
    cases hblock with
    | absent => simp [hafter] at hrest
    | @present brace body _ _ hbrace hbody =>
      have hempty : (⟨kind, [], none⟩ : Leaf).Valid := Leaf.valid_bare kind
      cases before with
      | nil =>
        exact cropped_parseFrom_derived (.element hsymbol hkind .absent) (valid_leaf.mpr hempty)
          (hlabels.of_subset (by simp)) outer nodes
      | cons second before =>
        obtain ⟨rfl, hbody'⟩ := List.cons.inj hrest
        have hruns : TokenReader.RunsOut stop before after (TokenReader.block stop
            (⟨kind, [], none⟩ : Leaf).element [] kind.parameters.length) :=
          TokenReader.runsOut_block hbody hbody' hafter hempty rfl
            (hlabels.of_suffix ((List.suffix_cons _ _).trans (List.suffix_cons _ _))) (by simp)
            (by simp) (valid_leaf.mp hvalid)
        exact cropped_parseFrom_block hsymbol hkind hbrace hruns outer nodes
  | @connection opening closing inner kind children hopening hinner hcount hclosing =>
    obtain ⟨rfl, hrest⟩ := List.cons.inj htokens
    rcases append_eq_append_cases hrest with ⟨more, rfl, rfl⟩ | ⟨last, more, rfl, hlast⟩
    · rw [parseFrom_opening hopening]
      have hcropped := cropped_parseFrom_nodes hinner (valid_branch.mp hvalid)
        (hlabels.of_subset (List.subset_cons_of_subset _ (List.subset_append_left _ _))) rfl
        (⟨kind, opening.position, nodes⟩ :: outer) []
      exact hcropped.extend (not_endsOpen_bracket (.inl hopening)) [closing]
    · simp [hafter] at hlast

/-- What the machine makes of the start of some nodes. -/
theorem cropped_parseFrom_nodes {tokens : List Token} {raw : List (Node Leaf)}
    (h : DerivesNodes tokens raw) (hvalid : Valid raw) (hlabels : LabelsTrimmed tokens)
    {before after : List Token} (htokens : tokens = before ++ after) (outer : List OpenConnection)
    (nodes : List (Node Element)) :
    Cropped stop before after (parseFrom stop outer nodes before) := by
  cases h with
  | nil =>
    obtain ⟨rfl, -⟩ := List.append_eq_nil_iff.mp htokens.symm
    exact cropped_parseFrom_nil outer nodes
  | @cons first tokens node raw hnode hnodes =>
    rw [valid_cons] at hvalid
    rcases append_eq_append_cases htokens with ⟨more, rfl, rfl⟩ | ⟨a, more, rfl, rfl⟩
    · have hcropped := cropped_parseFrom_node hnode hvalid.1
        (hlabels.of_subset (List.subset_append_left _ _)) rfl outer nodes
      exact hcropped.extend not_endsOpen_nil tokens
    · have hhead : (a :: more).head?.any TokenReader.isOpenBrace = false := by
        have hrest : (a :: more ++ after ++ []).head?.any TokenReader.isOpenBrace = false :=
          hnodes.head?_append rfl
        simpa using hrest
      have hlabels' : LabelsTrimmed (first ++ a :: more) := by
        refine hlabels.of_subset (List.append_subset.mpr ⟨List.subset_append_left _ _, ?_⟩)
        exact List.Subset.trans (List.subset_append_left _ _) (List.subset_append_right _ _)
      rw [parseFrom_node hnode hvalid.1 outer nodes (a :: more) hlabels' hhead]
      have hcropped := cropped_parseFrom_nodes hnodes hvalid.2
        (hlabels.of_suffix (List.suffix_append _ _)) rfl outer (nodes ++ [tree node])
      simpa using hcropped.extend hnode.not_endsOpen []

end

end Items

/-- What the parser makes of the first tokens of nodes. Without any there is no circuit. -/
theorem cropped_parseTokens {stop : Nat} {tokens before after : List Token} {raw : List (Node Leaf)}
    (h : DerivesNodes tokens raw) (hvalid : Valid raw) (hlabels : LabelsTrimmed tokens)
    (htokens : tokens = before ++ after) : Cropped stop before after (parseTokens stop before) := by
  have hcropped : Cropped stop before after (Items.parseFrom stop [] [] before) :=
    Items.cropped_parseFrom_nodes h hvalid hlabels htokens [] []
  change Cropped stop before after (Items.parseFrom stop [] [] before >>= _)
  cases hnodes : Items.parseFrom stop [] [] before with
  | error e =>
    rw [hnodes] at hcropped
    exact hcropped.error
  | ok nodes =>
    rw [hnodes] at hcropped
    cases hcropped with
    | ok hends =>
      simp only [bind, Except.bind]
      split
      · exact .ok hends
      · exact .tokens hends

end CircuitCode
