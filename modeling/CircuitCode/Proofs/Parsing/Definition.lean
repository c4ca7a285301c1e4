import CircuitCode.Proofs.Element.Limits
import CircuitCode.Proofs.Parsing.Element

/-!
# Definitions that are refused

A definition is read as far as it goes, and then its numbers are compared. If the value is not
between its limits, the definition is refused with the limit that the value violates, whatever
comes after it. So a definition at the end of the tokens is treated like one in a block that goes
on, and only then it shows that the block is not complete.
-/

namespace CircuitCode

open Grammar

theorem Number.isNaN_of_ofLiteral? {text : String} {x : Number} (h : ofLiteral? text = some x) :
    x.isNaN = false := by
  simpa using (Option.filter_eq_some_iff.mp h).2

theorem Grammar.Numeral.isNaN {token : Token} {x : Number} (h : Numeral token x) :
    x.isNaN = false :=
  Number.isNaN_of_ofLiteral? h.2

/-- A limit that is given is a number, and so is one of the kind. -/
theorem Grammar.Defines.isNaN {tokens : List Token} {d : Definition} (h : Defines tokens d)
    {kind : ElementKind} {p : ParameterDefinition} (hp : p ∈ kind.parameters) :
    d.value.isNaN = false ∧ (d.lower.getD p.lower).isNaN = false ∧
      (d.upper.getD p.upper).isNaN = false := by
  obtain ⟨hlower, hupper⟩ := kind.isNaN_limits p hp
  cases h with
  | mk _ _ hnumber hlimits _ =>
    refine ⟨hnumber.isNaN, ?_⟩
    cases hlimits with
    | none => exact ⟨hlower, hupper⟩
    | lower _ hlower => exact ⟨hlower.isNaN, hupper⟩
    | both _ hlower _ hupper => exact ⟨hlower.isNaN, hupper.isNaN⟩
    | upper _ _ hupper => exact ⟨hlower, hupper.isNaN⟩

theorem Grammar.Defines.name_eq {name : Token} {taken : List Token} {d : Definition}
    (h : Defines (name :: taken) d) : d.name = name.text := by
  cases h with
  | mk => rfl

theorem Grammar.Defines.name_kind {name : Token} {taken : List Token} {d : Definition}
    (h : Defines (name :: taken) d) : name.kind = .identifier := by
  cases h with
  | mk hname => exact hname

/-- The limit that a value violates, the lower one if it violates both. -/
def ParseError.ofLimits (position : Nat) (name : String) (value lower upper : Number) :
    ParseError :=
  if value < lower then .lowerLimit position name value lower
  else .upperLimit position name value upper

/-- Numbers that are refused are refused for a limit, also where the limits cross. -/
theorem ParseError.ofElementError_of_checkRange {position : Nat} {name : String}
    {value lower upper : Number} {cause : ElementError} (hvalue : value.isNaN = false)
    (hlower : lower.isNaN = false) (hupper : upper.isNaN = false)
    (h : checkRange name value lower upper = .error cause) :
    ofElementError position value cause = ofLimits position name value lower upper := by
  unfold checkRange at h
  simp only [hvalue, hlower, hupper, Bool.or_self, Bool.false_eq_true, ↓reduceIte] at h
  split at h
  · cases h
    rfl
  · split at h
    · next hlt =>
      cases h
      rw [ofLimits, if_pos hlt]
      rfl
    · next hge =>
      split at h
      · cases h
        rw [ofLimits, if_neg hge]
        rfl
      · cases h

/-- An element that has a parameter refuses a setting of it only for the numbers. -/
theorem Element.checkRange_of_setParameter {e : Element} {name : String}
    {value lower upper : Number} {fixed : Bool} {cause : ElementError}
    (hname : name ∈ e.parameters.map Parameter.name)
    (h : e.setParameter name value lower upper fixed = .error cause) :
    checkRange name value lower upper = .error cause := by
  obtain ⟨p, hp⟩ := exists_parameter hname
  obtain ⟨-, rfl⟩ := mem_of_parameter hp
  rw [setParameter, accepted_eq_error_iff, change, update_of_parameter hp] at h
  rcases Parameter.replace_cases p ⟨p.name, value, lower, upper, fixed⟩ with
    ⟨hok, -⟩ | ⟨cause', herror, -, hrange⟩
  · rw [hok] at h
    cases h
  · rw [herror] at h
    cases h
    exact hrange

/-- No token comes next that would belong to this definition: no mark and no slash. After its mark
    nothing belongs to a definition, and after its upper limit no slash does. -/
def Grammar.Definition.EndsBefore (d : Definition) (rest : List Token) : Prop :=
  d.fixed = false → rest.head?.any TokenReader.isFixedFlag = false ∧
    (d.upper = none → rest.head?.any TokenReader.isSlash = false)

theorem Grammar.Definition.EndsBefore.nil {d : Definition} : d.EndsBefore [] :=
  fun _ => ⟨rfl, fun _ => rfl⟩

namespace TokenReader

variable {stop : Nat} {taken rest : List Token} {d : Definition} {name : Token}

/-- No token comes next that would belong to a definition before it. -/
def DefinitionEnds (rest : List Token) : Prop :=
  rest.head?.any isSlash = false ∧ rest.head?.any isFixedFlag = false

theorem EndsDefinition.definitionEnds (h : EndsDefinition rest) : DefinitionEnds rest :=
  ⟨h.not_isSlash, h.not_isFixedFlag⟩

theorem DefinitionEnds.endsBefore (h : DefinitionEnds rest) : d.EndsBefore rest :=
  fun _ => ⟨h.2, fun _ => h.1⟩

/-- After a slash a lower limit is read, if it is there, and then an upper one. -/
theorem run_limits_of_slash {p : ParameterDefinition} {slash : Token} {tokens : List Token}
    (hslash : slash.kind = .slash) :
    (limits stop p).run (slash :: tokens) =
      (do
        let lower ← lowerLimit stop p
        let upper ← upperLimit stop p
        return (lower, upper) : TokenReader (Number × Number)).run tokens := by
  have htake : (takeIf isSlash).run (slash :: tokens) = .ok (true, tokens) := by
    simp [takeIf, StateT.run, isSlash, hslash]
  unfold limits
  rw [run_bind_of_ok htake]
  rfl

theorem run_limits_of_lowerLimit_error {p : ParameterDefinition} {slash : Token}
    {tokens : List Token} {cause : ParseError} (hslash : slash.kind = .slash)
    (hlower : (lowerLimit stop p).run tokens = .error cause) :
    (limits stop p).run (slash :: tokens) = .error cause := by
  rw [run_limits_of_slash hslash, run_bind_of_error hlower]

theorem run_limits_of_upperLimit_error {p : ParameterDefinition} {slash : Token}
    {tokens : List Token} {l : Number} {cause : ParseError} (hslash : slash.kind = .slash)
    (hlower : (lowerLimit stop p).run tokens = .ok (l, rest))
    (hupper : (upperLimit stop p).run rest = .error cause) :
    (limits stop p).run (slash :: tokens) = .error cause := by
  rw [run_limits_of_slash hslash, run_bind_of_ok hlower, run_bind_of_error hupper]

/-- A lower limit is a number where no slash takes its place. -/
theorem run_lowerLimit_of_not_isSlash {p : ParameterDefinition} {tokens : List Token}
    (h : tokens.head?.any isSlash = false) :
    (lowerLimit stop p).run tokens = (number stop).run tokens := by
  unfold lowerLimit
  rw [run_bind_of_ok (run_nextIs_eq_ok_iff.mpr ⟨h.symm, rfl⟩)]
  rfl

theorem run_upperLimit_of_slash {p : ParameterDefinition} {slash : Token} {tokens : List Token}
    (hslash : slash.kind = .slash) :
    (upperLimit stop p).run (slash :: tokens) = (number stop).run tokens := by
  have htake : (takeIf isSlash).run (slash :: tokens) = .ok (true, tokens) := by
    simp [takeIf, StateT.run, isSlash, hslash]
  unfold upperLimit
  rw [run_bind_of_ok htake]
  rfl

/-- Limits are read to their end if no slash follows where an upper one may still come. -/
theorem run_limits_of_limits {p : ParameterDefinition} {lower upper : Option Number}
    (hlimits : Limits taken lower upper)
    (hrest : upper = none → rest.head?.any isSlash = false) :
    (limits stop p).run (taken ++ rest) =
      .ok ((lower.getD p.lower, upper.getD p.upper), rest) := by
  have hupperSlot {slash number : Token} {u : Number} (hslash : slash.kind = .slash)
      (hnumber : Numeral number u) :
      (upperLimit stop p).run (slash :: number :: rest) = .ok (u, rest) := by
    rw [run_upperLimit_of_slash hslash]
    exact run_number_eq_ok_iff.mpr ⟨number, rfl, hnumber⟩
  cases hlimits with
  | none => exact (run_limits_eq_ok_iff (hrest rfl)).mpr ⟨[], none, none, rfl, .none, rfl, rfl⟩
  | lower hslash hlower =>
    exact (run_limits_eq_ok_iff (hrest rfl)).mpr
      ⟨_, some _, none, rfl, .lower hslash hlower, rfl, rfl⟩
  | both hslash hlower hslash' hupper =>
    rw [List.cons_append, run_limits_of_slash hslash]
    exact (run_bind_of_ok (run_lowerLimit_eq_ok_iff.mpr (.inr ⟨_, rfl, hlower⟩))).trans
      (run_bind_of_ok (hupperSlot hslash' hupper))
  | upper hslash hslash' hupper =>
    have hempty := isSlash_eq_true_iff.mpr hslash'
    rw [List.cons_append, run_limits_of_slash hslash]
    exact (run_bind_of_ok (run_lowerLimit_eq_ok_iff.mpr
      (.inl ⟨rfl, by simpa using hempty, rfl⟩))).trans (run_bind_of_ok (hupperSlot hslash' hupper))

/-- A definition is read to its end, and then the parameter is set to what is given. -/
theorem run_assignment_of_defines {e : Element} {p : ParameterDefinition} {position : Nat}
    (hdefines : Defines (name :: taken) d) (hrest : d.EndsBefore rest) :
    (assignment stop e p position).run (taken ++ rest) =
      ((e.setParameter p.name d.value (d.lower.getD p.lower) (d.upper.getD p.upper)
        d.fixed).mapError (ParseError.ofElementError position d.value)).map (·, rest) := by
  cases hdefines with
  | @mk _ equals number limits flag value lower upper fixed _ hequals hnumber hlimits hflag =>
    have hflagged : (takeIf isFixedFlag).run (flag ++ rest) = .ok (fixed, rest) := by
      cases hflag with
      | absent => exact run_takeIf_of_fails (hrest rfl).1
      | present hkind htext => simp [takeIf, StateT.run, isFixedFlag, hkind, htext]
    have hread : (TokenReader.limits stop p).run (limits ++ (flag ++ rest)) =
        .ok ((lower.getD p.lower, upper.getD p.upper), flag ++ rest) := by
      refine run_limits_of_limits hlimits fun hupper => ?_
      cases hflag with
      | absent => exact (hrest rfl).2 hupper
      | present hkind htext => simp [isSlash, hkind]
    rw [List.cons_append, List.cons_append, List.append_assoc]
    unfold assignment
    rw [run_bind_of_ok (run_ofKind_eq_ok_iff.mpr ⟨rfl, hequals⟩),
      run_bind_of_ok (run_number_eq_ok_iff.mpr ⟨number, rfl, hnumber⟩), run_bind_of_ok hread,
      run_bind_of_ok hflagged]
    cases hset : e.setParameter p.name value (lower.getD p.lower) (upper.getD p.upper) fixed <;> rfl

theorem run_definition_of_defines {e : Element} {p : ParameterDefinition} {defined : List String}
    (hdefines : Defines (name :: taken) d) (hrest : d.EndsBefore rest)
    (hp : e.kind.parameter? name.text = some p) (hfresh : name.text ∉ defined) :
    (definition stop e defined name).run (taken ++ rest) =
      ((e.setParameter p.name d.value (d.lower.getD p.lower) (d.upper.getD p.upper)
        d.fixed).mapError (ParseError.ofElementError name.position d.value)).map (·, rest) := by
  unfold definition
  simp only [hp, if_neg hfresh]
  exact run_assignment_of_defines hdefines hrest

section Leaf

variable {x : Leaf} {p : ParameterDefinition} {defined : List String}

/-- A definition whose value is between its limits is added to those before it. -/
theorem run_definition_of_valid (hdefines : Defines (name :: taken) d)
    (hrest : d.EndsBefore rest) (hx : x.Valid)
    (hdefined : ∀ name, name ∈ defined ↔ name ∈ x.definitions.map Definition.name)
    (hvalid : (x.define d).Valid) :
    (definition stop x.element defined name).run (taken ++ rest) =
      .ok ((x.define d).element, rest) := by
  obtain ⟨⟨p, hp⟩, hfresh⟩ := hvalid.of_define
  have hset := (Leaf.setParameter_element_eq_ok_iff hx hp hfresh).mpr ⟨hvalid, rfl⟩
  have hname : d.name = name.text := hdefines.name_eq
  rw [← hdefined] at hfresh
  rw [run_definition_of_defines hdefines hrest (hname ▸ hp) (hname ▸ hfresh), hset]
  rfl

/-- A definition whose value is not between its limits is refused with the limit it violates. -/
theorem run_definition_of_not_valid (hdefines : Defines (name :: taken) d)
    (hrest : d.EndsBefore rest) (hx : x.Valid)
    (hdefined : ∀ name, name ∈ defined ↔ name ∈ x.definitions.map Definition.name)
    (hp : x.kind.parameter? d.name = some p)
    (hfresh : d.name ∉ x.definitions.map Definition.name) (hvalid : ¬ (x.define d).Valid) :
    (definition stop x.element defined name).run (taken ++ rest) =
      .error (.ofLimits name.position d.name d.value (d.lower.getD p.lower)
        (d.upper.getD p.upper)) := by
  have hname : d.name = name.text := hdefines.name_eq
  obtain ⟨hmem, hpname⟩ := ElementKind.parameter?_eq_some_iff.mp hp
  obtain ⟨hvalue, hlower, hupper⟩ := hdefines.isNaN hmem
  cases hset : x.element.setParameter p.name d.value (d.lower.getD p.lower)
      (d.upper.getD p.upper) d.fixed with
  | ok e => exact absurd ((Leaf.setParameter_element_eq_ok_iff hx hp hfresh).mp hset).1 hvalid
  | error cause =>
    have hmem' : p.name ∈ x.element.parameters.map Parameter.name := by
      rw [Leaf.names_element]
      exact List.mem_map_of_mem hmem
    have hcause : ParseError.ofElementError name.position d.value cause =
        .ofLimits name.position p.name d.value (d.lower.getD p.lower) (d.upper.getD p.upper) :=
      ParseError.ofElementError_of_checkRange hvalue hlower hupper
        (Element.checkRange_of_setParameter hmem' hset)
    rw [← hdefined] at hfresh
    rw [run_definition_of_defines hdefines hrest (hname ▸ hp) (hname ▸ hfresh), hset, ← hpname,
      ← hcause]
    rfl

end Leaf

section Block

variable {e e' : Element} {defined : List String} {remaining : Nat} {tokens : List Token}

/-- A block fails where a definition in it does. -/
theorem run_block_of_definition_error {cause : ParseError} (hname : name.kind = .identifier)
    (h : (definition stop e defined name).run tokens = .error cause) :
    (block stop e defined (remaining + 1)).run (name :: tokens) = .error cause := by
  unfold block
  rw [run_bind_of_ok (run_name_eq_ok_iff.mpr ⟨rfl, hname⟩)]
  exact run_bind_of_error h

/-- A block goes on after a definition and a comma. -/
theorem run_block_of_comma {comma : Token} (hname : name.kind = .identifier)
    (h : (definition stop e defined name).run tokens = .ok (e', comma :: rest))
    (hcomma : comma.kind = .comma) :
    (block stop e defined (remaining + 1)).run (name :: tokens) =
      (block stop e' (name.text :: defined) remaining).run rest := by
  conv_lhs => unfold block
  rw [run_bind_of_ok (run_name_eq_ok_iff.mpr ⟨rfl, hname⟩)]
  dsimp only
  rw [run_bind_of_ok h, run_bind_of_ok (run_token_eq_ok_iff.mpr rfl), hcomma]

/-- A label comes after a definition and a colon. -/
theorem run_block_of_colon {colon : Token} (hname : name.kind = .identifier)
    (h : (definition stop e defined name).run tokens = .ok (e', colon :: rest))
    (hcolon : colon.kind = .colon) :
    (block stop e defined (remaining + 1)).run (name :: tokens) = (label stop e').run rest := by
  unfold block
  rw [run_bind_of_ok (run_name_eq_ok_iff.mpr ⟨rfl, hname⟩)]
  dsimp only
  rw [run_bind_of_ok h, run_bind_of_ok (run_token_eq_ok_iff.mpr rfl), hcolon]

/-- A block ends with the closing brace. -/
theorem run_block_of_close {brace : Token} (hname : name.kind = .identifier)
    (h : (definition stop e defined name).run tokens = .ok (e', brace :: rest))
    (hbrace : brace.kind = .closeBrace) :
    (block stop e defined (remaining + 1)).run (name :: tokens) = .ok (e', rest) := by
  unfold block
  rw [run_bind_of_ok (run_name_eq_ok_iff.mpr ⟨rfl, hname⟩)]
  dsimp only
  rw [run_bind_of_ok h, run_bind_of_ok (run_token_eq_ok_iff.mpr rfl), hbrace]
  rfl

/-- Nothing else comes after a definition than a comma, a colon and the closing brace. -/
theorem run_block_of_other {other : Token} (hname : name.kind = .identifier)
    (h : (definition stop e defined name).run tokens = .ok (e', other :: rest))
    (hcomma : other.kind ≠ .comma) (hcolon : other.kind ≠ .colon)
    (hclose : other.kind ≠ .closeBrace) :
    (block stop e defined (remaining + 1)).run (name :: tokens) = .error (.ofToken other) := by
  unfold block
  rw [run_bind_of_ok (run_name_eq_ok_iff.mpr ⟨rfl, hname⟩)]
  dsimp only
  rw [run_bind_of_ok h, run_bind_of_ok (run_token_eq_ok_iff.mpr rfl)]
  split <;> first | contradiction | rfl

/-- A block does not end with a definition. -/
theorem run_block_of_end (hname : name.kind = .identifier)
    (h : (definition stop e defined name).run tokens = .ok (e', [])) :
    (block stop e defined (remaining + 1)).run (name :: tokens) =
      .error (.insufficientTokens stop .parameterBlock) := by
  unfold block
  rw [run_bind_of_ok (run_name_eq_ok_iff.mpr ⟨rfl, hname⟩)]
  dsimp only
  rw [run_bind_of_ok h]
  rfl

end Block

end TokenReader

end CircuitCode
