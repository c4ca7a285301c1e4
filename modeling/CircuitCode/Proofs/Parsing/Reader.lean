import CircuitCode.Proofs.Parsing.Grammar

/-!
# What readers accept

A reader succeeds exactly on the tokens that the grammar derives. Each reader has one lemma for
this, stated as an equivalence with what the reader takes and what it leaves. Where the end of a
construct is optional, the lemma asks what the next token is: a definition ends at a comma, a colon
or a closing brace.
-/

namespace CircuitCode

namespace TokenReader

open Grammar

variable {α β : Type} {stop : Nat} {tokens rest : List Token}

theorem run_bind_eq_ok_iff {reader : TokenReader α} {next : α → TokenReader β} {b : β} :
    (reader >>= next).run tokens = .ok (b, rest) ↔
      ∃ a middle, reader.run tokens = .ok (a, middle) ∧ (next a).run middle = .ok (b, rest) := by
  rw [StateT.run_bind]
  cases hread : reader.run tokens with
  | error e => simp [bind, Except.bind]
  | ok result =>
    obtain ⟨a, middle⟩ := result
    simp [bind, Except.bind]

theorem run_bind_of_ok {reader : TokenReader α} {next : α → TokenReader β} {a : α}
    (h : reader.run tokens = .ok (a, rest)) :
    (reader >>= next).run tokens = (next a).run rest := by
  rw [StateT.run_bind, h]
  rfl

theorem run_bind_of_error {reader : TokenReader α} {next : α → TokenReader β} {e : ParseError}
    (h : reader.run tokens = .error e) : (reader >>= next).run tokens = .error e := by
  rw [StateT.run_bind, h]
  rfl

theorem run_pure_eq_ok_iff {a b : α} :
    (pure a : TokenReader α).run tokens = .ok (b, rest) ↔ b = a ∧ rest = tokens := by
  rw [StateT.run_pure]
  simp [pure, Except.pure, eq_comm]

theorem run_throw_ne_ok {e : ParseError} {result : α × List Token} :
    (throw e : TokenReader α).run tokens ≠ .ok result := by
  intro h
  cases h

theorem run_token_eq_ok_iff {context : ParseContext} {next : Token} :
    (token stop context).run tokens = .ok (next, rest) ↔ tokens = next :: rest := by
  cases tokens with
  | nil => simp [token, StateT.run]
  | cons first tokens => simp [token, StateT.run]

theorem run_ofKind_eq_ok_iff {kind : TokenKind} {context : ParseContext} {next : Token} :
    (ofKind stop kind context).run tokens = .ok (next, rest) ↔
      tokens = next :: rest ∧ next.kind = kind := by
  unfold ofKind
  rw [run_bind_eq_ok_iff]
  constructor
  · rintro ⟨first, middle, htoken, hnext⟩
    rw [run_token_eq_ok_iff] at htoken
    split at hnext
    · next hkind =>
        obtain ⟨rfl, rfl⟩ := run_pure_eq_ok_iff.mp hnext
        exact ⟨htoken, hkind⟩
    · exact absurd hnext run_throw_ne_ok
  · rintro ⟨rfl, hkind⟩
    refine ⟨next, rest, run_token_eq_ok_iff.mpr rfl, ?_⟩
    rw [if_pos hkind]
    exact run_pure_eq_ok_iff.mpr ⟨rfl, rfl⟩

theorem run_nextIs_eq_ok_iff {test : Token → Bool} {b : Bool} :
    (nextIs test).run tokens = .ok (b, rest) ↔ b = tokens.head?.any test ∧ rest = tokens := by
  simp [nextIs, StateT.run, eq_comm]

theorem run_takeIf_cons_eq_ok_iff {test : Token → Bool} {next : Token} {b : Bool} :
    (takeIf test).run (next :: tokens) = .ok (b, rest) ↔
      b = test next ∧ rest = if test next then tokens else next :: tokens := by
  simp only [takeIf, StateT.run, List.head?_cons, Option.any_some, List.tail_cons, Except.ok.injEq,
    Prod.mk.injEq]
  exact and_congr eq_comm eq_comm

theorem run_takeIf_nil_eq_ok_iff {test : Token → Bool} {b : Bool} :
    (takeIf test).run [] = .ok (b, rest) ↔ b = false ∧ rest = [] := by
  simp [takeIf, StateT.run, eq_comm]

/-- A test that the next token fails takes nothing. -/
theorem run_takeIf_of_fails {test : Token → Bool} (h : tokens.head?.any test = false) :
    (takeIf test).run tokens = .ok (false, tokens) := by
  simp [takeIf, StateT.run, h]

theorem run_number_eq_ok_iff {value : Number} :
    (number stop).run tokens = .ok (value, rest) ↔
      ∃ next, tokens = next :: rest ∧ Numeral next value := by
  cases tokens with
  | nil => simp [number, StateT.run]
  | cons first tokens =>
    unfold Numeral
    simp only [number, StateT.run, List.cons.injEq]
    by_cases hkind : first.kind = .number
    · rw [if_pos hkind]
      cases hliteral : Number.ofLiteral? first.text with
      | none =>
        simp only [reduceCtorEq, false_iff]
        rintro ⟨next, ⟨rfl, -⟩, -, hvalue⟩
        simp [hliteral] at hvalue
      | some value' =>
        simp only [Except.ok.injEq, Prod.mk.injEq]
        constructor
        · rintro ⟨rfl, rfl⟩
          exact ⟨first, ⟨rfl, rfl⟩, hkind, hliteral⟩
        · rintro ⟨next, ⟨rfl, rfl⟩, -, hvalue⟩
          rw [hliteral] at hvalue
          exact ⟨Option.some.inj hvalue, rfl⟩
    · rw [if_neg hkind]
      simp only [reduceCtorEq, false_iff]
      rintro ⟨next, ⟨rfl, -⟩, hnumber, -⟩
      exact hkind hnumber

theorem isSlash_of_numeral {token : Token} {value : Number} (h : Numeral token value) :
    isSlash token = false := by
  simp [isSlash, h.1]

theorem isSlash_eq_true_iff {token : Token} : isSlash token = true ↔ token.kind = .slash := by
  simp [isSlash]

/-- An upper limit after a slash, which may be missing. -/
inductive UpperSlot : List Token → Option Number → Prop where
  | absent : UpperSlot [] none
  | present {slash number : Token} {value : Number} (hslash : slash.kind = .slash)
      (hnumber : Numeral number value) : UpperSlot [slash, number] (some value)

/-- If no upper limit is taken, no slash comes next. -/
theorem upperSlot_of_run_upperLimit {definition : ParameterDefinition} {u : Number}
    (h : (upperLimit stop definition).run tokens = .ok (u, rest)) :
    ∃ taken upper, tokens = taken ++ rest ∧ UpperSlot taken upper ∧
      u = upper.getD definition.upper ∧ (taken = [] → rest.head?.any isSlash = false) := by
  unfold upperLimit at h
  obtain ⟨slash, middle, hslash, h⟩ := run_bind_eq_ok_iff.mp h
  cases tokens with
  | nil =>
    obtain ⟨rfl, rfl⟩ := run_takeIf_nil_eq_ok_iff.mp hslash
    obtain ⟨rfl, rfl⟩ := run_pure_eq_ok_iff.mp h
    exact ⟨[], none, rfl, .absent, rfl, fun _ => rfl⟩
  | cons first tokens =>
    obtain ⟨rfl, rfl⟩ := run_takeIf_cons_eq_ok_iff.mp hslash
    by_cases hfirst : isSlash first = true
    · simp only [hfirst, ↓reduceIte] at h
      obtain ⟨number, rfl, hnumber⟩ := run_number_eq_ok_iff.mp h
      exact ⟨[first, number], some u, rfl, .present (isSlash_eq_true_iff.mp hfirst) hnumber, rfl,
        nofun⟩
    · simp only [hfirst, Bool.false_eq_true, ↓reduceIte] at h
      obtain ⟨rfl, rfl⟩ := run_pure_eq_ok_iff.mp h
      exact ⟨[], none, rfl, .absent, rfl, fun _ => by simpa using hfirst⟩

/-- An upper limit is read if a slash follows. -/
theorem run_upperLimit_eq_ok_iff {definition : ParameterDefinition} {u : Number}
    (hrest : rest.head?.any isSlash = false) :
    (upperLimit stop definition).run tokens = .ok (u, rest) ↔
      ∃ taken upper, tokens = taken ++ rest ∧ UpperSlot taken upper ∧
        u = upper.getD definition.upper := by
  constructor
  · intro h
    obtain ⟨taken, upper, htokens, hslot, hupper, -⟩ := upperSlot_of_run_upperLimit h
    exact ⟨taken, upper, htokens, hslot, hupper⟩
  · rintro ⟨taken, upper, rfl, hslot, rfl⟩
    unfold upperLimit
    rw [run_bind_eq_ok_iff]
    cases hslot with
    | absent => exact ⟨false, rest, run_takeIf_of_fails hrest, run_pure_eq_ok_iff.mpr ⟨rfl, rfl⟩⟩
    | @present slash number value hslash hnumber =>
      refine ⟨true, number :: rest, ?_, run_number_eq_ok_iff.mpr ⟨number, rfl, hnumber⟩⟩
      simp [takeIf, StateT.run, isSlash, hslash]

/-- A lower limit is read unless a slash stands in its place. -/
theorem run_lowerLimit_eq_ok_iff {definition : ParameterDefinition} {l : Number} :
    (lowerLimit stop definition).run tokens = .ok (l, rest) ↔
      (tokens = rest ∧ rest.head?.any isSlash = true ∧ l = definition.lower) ∨
        ∃ number, tokens = number :: rest ∧ Numeral number l := by
  unfold lowerLimit
  rw [run_bind_eq_ok_iff]
  constructor
  · rintro ⟨empty, middle, hempty, h⟩
    obtain ⟨rfl, rfl⟩ := run_nextIs_eq_ok_iff.mp hempty
    split at h
    · next hnext =>
        obtain ⟨rfl, rfl⟩ := run_pure_eq_ok_iff.mp h
        exact .inl ⟨rfl, hnext, rfl⟩
    · exact .inr (run_number_eq_ok_iff.mp h)
  · rintro (⟨rfl, hnext, rfl⟩ | ⟨number, rfl, hnumber⟩)
    · refine ⟨true, tokens, run_nextIs_eq_ok_iff.mpr ⟨hnext.symm, rfl⟩, ?_⟩
      exact run_pure_eq_ok_iff.mpr ⟨rfl, rfl⟩
    · refine ⟨false, _, run_nextIs_eq_ok_iff.mpr ⟨?_, rfl⟩, run_number_eq_ok_iff.mpr ?_⟩
      · simp [isSlash_of_numeral hnumber]
      · exact ⟨number, rfl, hnumber⟩

/-- Limits that are read are as the grammar has them, whatever follows. -/
theorem limits_of_run_limits {definition : ParameterDefinition} {l u : Number}
    (h : (limits stop definition).run tokens = .ok ((l, u), rest)) :
    ∃ taken lower upper, tokens = taken ++ rest ∧ Limits taken lower upper ∧
      l = lower.getD definition.lower ∧ u = upper.getD definition.upper := by
  unfold limits at h
  obtain ⟨slash, middle, hslash, h⟩ := run_bind_eq_ok_iff.mp h
  cases tokens with
  | nil =>
    obtain ⟨rfl, rfl⟩ := run_takeIf_nil_eq_ok_iff.mp hslash
    obtain ⟨hlu, rfl⟩ := run_pure_eq_ok_iff.mp h
    cases hlu
    exact ⟨[], none, none, rfl, .none, rfl, rfl⟩
  | cons first tokens =>
    obtain ⟨rfl, rfl⟩ := run_takeIf_cons_eq_ok_iff.mp hslash
    by_cases hfirst : isSlash first = true
    · simp only [hfirst, ↓reduceIte] at h
      have hkind := isSlash_eq_true_iff.mp hfirst
      obtain ⟨lower, afterLower, hlower, h⟩ := run_bind_eq_ok_iff.mp h
      obtain ⟨upper, afterUpper, hupper, h⟩ := run_bind_eq_ok_iff.mp h
      obtain ⟨hlu, rfl⟩ := run_pure_eq_ok_iff.mp h
      cases hlu
      obtain ⟨taken, upper, rfl, hslot, rfl, hnone⟩ := upperSlot_of_run_upperLimit hupper
      obtain ⟨rfl, hnext, rfl⟩ | ⟨number, rfl, hnumber⟩ := run_lowerLimit_eq_ok_iff.mp hlower
      · cases hslot with
        | absent => simp [hnone rfl] at hnext
        | present hslash' hnumber =>
          exact ⟨_, none, _, rfl, .upper hkind hslash' hnumber, rfl, rfl⟩
      · cases hslot with
        | absent => exact ⟨_, _, none, rfl, .lower hkind hnumber, rfl, rfl⟩
        | present hslash' hnumber' =>
          exact ⟨_, _, _, rfl, .both hkind hnumber hslash' hnumber', rfl, rfl⟩
    · simp only [hfirst, Bool.false_eq_true, ↓reduceIte] at h
      obtain ⟨hlu, rfl⟩ := run_pure_eq_ok_iff.mp h
      cases hlu
      exact ⟨[], none, none, rfl, .none, rfl, rfl⟩

/-- The limits are read as far as they go if no slash follows them. -/
theorem run_limits_eq_ok_iff {definition : ParameterDefinition} {l u : Number}
    (hrest : rest.head?.any isSlash = false) :
    (limits stop definition).run tokens = .ok ((l, u), rest) ↔
      ∃ taken lower upper, tokens = taken ++ rest ∧ Limits taken lower upper ∧
        l = lower.getD definition.lower ∧ u = upper.getD definition.upper := by
  refine ⟨limits_of_run_limits, ?_⟩
  unfold limits
  rw [run_bind_eq_ok_iff]
  rintro ⟨taken, lower, upper, rfl, hlimits, rfl, rfl⟩
  have hstep {slash : Token} {tokens after : List Token} {l u : Number}
      (hslash : slash.kind = .slash)
      (hlower : (lowerLimit stop definition).run tokens = .ok (l, after))
      (hupper : (upperLimit stop definition).run after = .ok (u, rest)) :
      ∃ b middle, (takeIf isSlash).run (slash :: tokens) = .ok (b, middle) ∧
        (if b = true then do
            let lower ← lowerLimit stop definition
            let upper ← upperLimit stop definition
            pure (lower, upper)
          else pure (definition.lower, definition.upper) : TokenReader (Number × Number)).run
          middle = .ok ((l, u), rest) := by
    refine ⟨true, tokens, ?_, ?_⟩
    · simp [takeIf, StateT.run, isSlash, hslash]
    · exact run_bind_eq_ok_iff.mpr ⟨l, after, hlower,
        run_bind_eq_ok_iff.mpr ⟨u, rest, hupper, run_pure_eq_ok_iff.mpr ⟨rfl, rfl⟩⟩⟩
  cases hlimits with
  | none => exact ⟨false, rest, run_takeIf_of_fails hrest, run_pure_eq_ok_iff.mpr ⟨rfl, rfl⟩⟩
  | lower hslash hnumber =>
    exact hstep hslash (run_lowerLimit_eq_ok_iff.mpr (.inr ⟨_, rfl, hnumber⟩))
      ((run_upperLimit_eq_ok_iff hrest).mpr ⟨[], none, rfl, .absent, rfl⟩)
  | both hslash hlower hslash' hupper =>
    exact hstep hslash (run_lowerLimit_eq_ok_iff.mpr (.inr ⟨_, rfl, hlower⟩))
      ((run_upperLimit_eq_ok_iff hrest).mpr ⟨_, _, rfl, .present hslash' hupper, rfl⟩)
  | upper hslash hslash' hnumber =>
    refine hstep hslash (run_lowerLimit_eq_ok_iff.mpr (.inl ⟨rfl, ?_, rfl⟩))
      ((run_upperLimit_eq_ok_iff hrest).mpr ⟨_, _, rfl, .present hslash' hnumber, rfl⟩)
    simp [isSlash, hslash']

/-- A token that may stand after a definition comes next. -/
def EndsDefinition (tokens : List Token) : Prop :=
  ∃ next rest, tokens = next :: rest ∧
    (next.kind = .comma ∨ next.kind = .colon ∨ next.kind = .closeBrace)

theorem EndsDefinition.not_isSlash (h : EndsDefinition rest) :
    rest.head?.any isSlash = false := by
  obtain ⟨next, rest, rfl, hkind | hkind | hkind⟩ := h <;> simp [isSlash, hkind]

theorem EndsDefinition.not_isFixedFlag (h : EndsDefinition rest) :
    rest.head?.any isFixedFlag = false := by
  obtain ⟨next, rest, rfl, hkind | hkind | hkind⟩ := h <;> simp [isFixedFlag, hkind]

theorem not_isSlash_of_flag {flag : List Token} {fixed : Bool} (h : Flag flag fixed)
    (hrest : rest.head?.any isSlash = false) : (flag ++ rest).head?.any isSlash = false := by
  cases h with
  | absent => exact hrest
  | present hkind htext => simp [isSlash, hkind]

theorem flag_of_run_takeIf {b : Bool} (h : (takeIf isFixedFlag).run tokens = .ok (b, rest)) :
    ∃ taken, tokens = taken ++ rest ∧ Flag taken b := by
  cases tokens with
  | nil =>
    obtain ⟨rfl, rfl⟩ := run_takeIf_nil_eq_ok_iff.mp h
    exact ⟨[], rfl, .absent⟩
  | cons first tokens =>
    obtain ⟨rfl, rfl⟩ := run_takeIf_cons_eq_ok_iff.mp h
    by_cases hfirst : isFixedFlag first = true
    · rw [hfirst, if_pos rfl]
      simp only [isFixedFlag, Bool.and_eq_true, beq_iff_eq] at hfirst
      exact ⟨[first], rfl, .present hfirst.1 hfirst.2⟩
    · rw [Bool.eq_false_iff.mpr hfirst, if_neg Bool.false_ne_true]
      exact ⟨[], rfl, .absent⟩

/-- The mark of a fixed parameter is read if it comes next. -/
theorem run_takeIf_isFixedFlag_eq_ok_iff {b : Bool} (hrest : EndsDefinition rest) :
    (takeIf isFixedFlag).run tokens = .ok (b, rest) ↔
      ∃ taken, tokens = taken ++ rest ∧ Flag taken b := by
  refine ⟨flag_of_run_takeIf, ?_⟩
  rintro ⟨taken, rfl, hflag⟩
  cases hflag with
  | absent => exact run_takeIf_of_fails hrest.not_isFixedFlag
  | present hkind htext => simp [takeIf, StateT.run, isFixedFlag, hkind, htext]

/-- What follows the name of a parameter is read as the grammar has it, and the parameter is set to
    what is given. -/
theorem run_assignment_eq_ok_iff {e e' : Element} {p : ParameterDefinition} {position : Nat}
    {name : Token} (hname : name.kind = .identifier) (hrest : EndsDefinition rest) :
    (assignment stop e p position).run tokens = .ok (e', rest) ↔
      ∃ taken d, tokens = taken ++ rest ∧ Defines (name :: taken) d ∧
        e.setParameter p.name d.value (d.lower.getD p.lower) (d.upper.getD p.upper) d.fixed =
          .ok e' := by
  unfold assignment
  constructor
  · intro h
    obtain ⟨equals, _, hread, hrun⟩ := run_bind_eq_ok_iff.mp h
    obtain ⟨value, _, hvalue, hrun⟩ := run_bind_eq_ok_iff.mp hrun
    obtain ⟨⟨l, u⟩, afterLimits, hreadLimits, hrun⟩ := run_bind_eq_ok_iff.mp hrun
    obtain ⟨fixed, _, hfixed, hset⟩ := run_bind_eq_ok_iff.mp hrun
    clear h hrun
    obtain ⟨rfl, hequals⟩ := run_ofKind_eq_ok_iff.mp hread
    obtain ⟨number, rfl, hnumber⟩ := run_number_eq_ok_iff.mp hvalue
    cases hresult : e.setParameter p.name value l u fixed with
    | error cause =>
      simp only [hresult] at hset
      exact absurd hset run_throw_ne_ok
    | ok result =>
      simp only [hresult] at hset
      obtain ⟨rfl, rfl⟩ := run_pure_eq_ok_iff.mp hset
      obtain ⟨flag, rfl, hflag⟩ := (run_takeIf_isFixedFlag_eq_ok_iff hrest).mp hfixed
      obtain ⟨taken, lower, upper, rfl, hlimits, rfl, rfl⟩ :=
        (run_limits_eq_ok_iff (not_isSlash_of_flag hflag hrest.not_isSlash)).mp hreadLimits
      refine ⟨equals :: number :: (taken ++ flag), ⟨name.text, value, lower, upper, fixed⟩, ?_,
        .mk hname hequals hnumber hlimits hflag, hresult⟩
      simp
  · rintro ⟨taken, d, rfl, hdefines, hset⟩
    cases hdefines with
    | @mk _ equals number limits flag value lower upper fixed _ hequals hnumber hlimits hflag =>
      have hslash := not_isSlash_of_flag hflag hrest.not_isSlash
      refine run_bind_eq_ok_iff.mpr ⟨equals, _, run_ofKind_eq_ok_iff.mpr ⟨rfl, hequals⟩, ?_⟩
      refine run_bind_eq_ok_iff.mpr ⟨value, _, run_number_eq_ok_iff.mpr ⟨number, rfl, hnumber⟩, ?_⟩
      refine run_bind_eq_ok_iff.mpr ⟨(lower.getD p.lower, upper.getD p.upper), flag ++ rest,
        (run_limits_eq_ok_iff hslash).mpr ⟨limits, lower, upper, by simp, hlimits, rfl, rfl⟩, ?_⟩
      refine run_bind_eq_ok_iff.mpr ⟨fixed, rest,
        (run_takeIf_isFixedFlag_eq_ok_iff hrest).mpr ⟨flag, rfl, hflag⟩, ?_⟩
      simp only [hset]
      exact run_pure_eq_ok_iff.mpr ⟨rfl, rfl⟩

/-- A definition is read after its name if the kind has a parameter of this name and it is not
    among those already defined. -/
theorem run_definition_eq_ok_iff {e e' : Element} {defined : List String} {name : Token}
    (hname : name.kind = .identifier) (hrest : EndsDefinition rest) :
    (definition stop e defined name).run tokens = .ok (e', rest) ↔
      ∃ taken d p, tokens = taken ++ rest ∧ Defines (name :: taken) d ∧
        e.kind.parameter? d.name = some p ∧ d.name ∉ defined ∧
        e.setParameter p.name d.value (d.lower.getD p.lower) (d.upper.getD p.upper) d.fixed =
          .ok e' := by
  have hdname {taken : List Token} {d : Definition} (h : Defines (name :: taken) d) :
      d.name = name.text := by
    cases h with
    | mk => rfl
  unfold definition
  cases hparameter : e.kind.parameter? name.text with
  | none =>
    simp only [run_throw_ne_ok, false_iff]
    rintro ⟨taken, d, p, -, hdefines, hp, -⟩
    rw [hdname hdefines, hparameter] at hp
    cases hp
  | some p =>
    by_cases hmem : name.text ∈ defined
    · simp only [if_pos hmem, run_throw_ne_ok, false_iff]
      rintro ⟨taken, d, p, -, hdefines, -, hfresh, -⟩
      exact hfresh (hdname hdefines ▸ hmem)
    · simp only [if_neg hmem]
      rw [run_assignment_eq_ok_iff hname hrest]
      constructor
      · rintro ⟨taken, d, htokens, hdefines, hset⟩
        have hd := hdname hdefines
        exact ⟨taken, d, p, htokens, hdefines, hd ▸ hparameter, hd ▸ hmem, hset⟩
      · rintro ⟨taken, d, p', htokens, hdefines, hp, -, hset⟩
        rw [hdname hdefines, hparameter, Option.some.injEq] at hp
        exact ⟨taken, d, htokens, hdefines, hp ▸ hset⟩

end TokenReader

end CircuitCode
