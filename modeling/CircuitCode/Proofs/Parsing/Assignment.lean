import CircuitCode.Proofs.Parsing.Definition
import CircuitCode.Proofs.Parsing.Places

/-!
# What is read before a limit is refused

Readers do not compare numbers, so a definition is refused for a limit only after it has been read
(`run_assignment_cases`). If a block with one definition is refused for a limit, it thus starts
with a definition, and if it is accepted, it is one (`defines_of_upToLimits`).
-/

namespace CircuitCode

open Grammar

/-- Whether a value is refused because it is not between its limits. -/
def ParseError.isLimit : ParseError → Bool
  | lowerLimit _ _ _ _ => true
  | upperLimit _ _ _ _ => true
  | _ => false

/-- A text is accepted unless a value in it is not between its limits. -/
def UpToLimits {α : Type} (outcome : Except ParseError α) : Prop :=
  ∀ e, outcome = .error e → e.isLimit = true

theorem ParseError.isLimit_ofLimits (position : Nat) (name : String) (value lower upper : Number) :
    (ofLimits position name value lower upper).isLimit = true := by
  unfold ofLimits
  split <;> rfl

theorem ParseError.isLimit_ofToken (token : Token) : (ofToken token).isLimit = false := rfl

namespace TokenReader

variable {α β : Type} {stop : Nat}

/-- A reader that refuses nothing because of a limit. -/
def LimitFree (reader : TokenReader α) : Prop :=
  ∀ (tokens : List Token) (e : ParseError), reader.run tokens = .error e → e.isLimit = false

theorem limitFree_pure (a : α) : LimitFree (pure a) := by
  intro tokens e h
  cases h

theorem limitFree_throw {e : ParseError} (he : e.isLimit = false) :
    LimitFree (throw e : TokenReader α) := by
  intro tokens e' h
  cases h
  exact he

theorem LimitFree.bind {reader : TokenReader α} {next : α → TokenReader β}
    (h : LimitFree reader) (hnext : ∀ a, LimitFree (next a)) : LimitFree (reader >>= next) := by
  intro tokens e hrun
  cases hread : reader.run tokens with
  | error cause =>
    rw [run_bind_of_error hread] at hrun
    cases hrun
    exact h tokens e hread
  | ok result =>
    obtain ⟨a, rest⟩ := result
    rw [run_bind_of_ok hread] at hrun
    exact hnext a rest e hrun

theorem LimitFree.ite {c : Prop} [Decidable c] {reader reader' : TokenReader α}
    (h : LimitFree reader) (h' : LimitFree reader') :
    LimitFree (if c then reader else reader') := by
  split
  · exact h
  · exact h'

theorem limitFree_token (context : ParseContext) : LimitFree (token stop context) := by
  intro tokens e h
  cases tokens with
  | nil =>
    cases h
    rfl
  | cons next tokens => cases h

theorem limitFree_ofKind (kind : TokenKind) (context : ParseContext) :
    LimitFree (ofKind stop kind context) :=
  (limitFree_token context).bind fun token =>
    (limitFree_pure _).ite (limitFree_throw (ParseError.isLimit_ofToken token))

theorem limitFree_nextIs (test : Token → Bool) : LimitFree (nextIs test) := by
  intro tokens e h
  cases h

theorem limitFree_takeIf (test : Token → Bool) : LimitFree (takeIf test) := by
  intro tokens e h
  cases h

theorem limitFree_number : LimitFree (number stop) := by
  intro tokens e h
  cases tokens with
  | nil =>
    cases h
    rfl
  | cons next tokens =>
    simp only [number, StateT.run] at h
    split at h
    · cases h
    · cases h
      rfl

theorem limitFree_limits (p : ParameterDefinition) : LimitFree (limits stop p) := by
  have hlower : LimitFree (lowerLimit stop p) :=
    (limitFree_nextIs _).bind fun _ => (limitFree_pure _).ite limitFree_number
  have hupper : LimitFree (upperLimit stop p) :=
    (limitFree_takeIf _).bind fun _ => limitFree_number.ite (limitFree_pure _)
  exact (limitFree_takeIf _).bind fun _ =>
    (hlower.bind fun _ => hupper.bind fun _ => limitFree_pure _).ite (limitFree_pure _)

variable {e : Element} {defined : List String} {name : Token} {p : ParameterDefinition}

/-- Either no definition is read, and then the reason is not a limit, or the parameter is set to
    what is given. -/
theorem run_assignment_cases (stop : Nat) (e : Element) (p : ParameterDefinition) (position : Nat)
    (hname : name.kind = .identifier) (tokens : List Token) :
    (∃ cause, (assignment stop e p position).run tokens = .error cause ∧ cause.isLimit = false) ∨
      ∃ taken d rest, tokens = taken ++ rest ∧ Defines (name :: taken) d ∧
        (assignment stop e p position).run tokens =
          ((e.setParameter p.name d.value (d.lower.getD p.lower) (d.upper.getD p.upper)
            d.fixed).mapError (ParseError.ofElementError position d.value)).map (·, rest) := by
  unfold assignment
  cases hequals : (ofKind stop .equals .parameterDefinition).run tokens with
  | error cause => exact .inl ⟨cause, run_bind_of_error hequals, limitFree_ofKind _ _ _ _ hequals⟩
  | ok read =>
  obtain ⟨equals, afterEquals⟩ := read
  rw [run_bind_of_ok hequals]
  obtain ⟨rfl, hkind⟩ := run_ofKind_eq_ok_iff.mp hequals
  cases hvalue : (number stop).run afterEquals with
  | error cause => exact .inl ⟨cause, run_bind_of_error hvalue, limitFree_number _ _ hvalue⟩
  | ok read =>
  obtain ⟨value, afterValue⟩ := read
  rw [run_bind_of_ok hvalue]
  obtain ⟨number, rfl, hnumber⟩ := run_number_eq_ok_iff.mp hvalue
  cases hread : (limits stop p).run afterValue with
  | error cause => exact .inl ⟨cause, run_bind_of_error hread, limitFree_limits p _ _ hread⟩
  | ok read =>
  obtain ⟨⟨l, u⟩, afterLimits⟩ := read
  rw [run_bind_of_ok hread]
  obtain ⟨slots, lower, upper, rfl, hlimits, rfl, rfl⟩ := limits_of_run_limits hread
  cases hfixed : (takeIf isFixedFlag).run afterLimits with
  | error cause => exact absurd hfixed (by simp [takeIf, StateT.run])
  | ok read =>
  obtain ⟨fixed, rest⟩ := read
  rw [run_bind_of_ok hfixed]
  obtain ⟨flag, rfl, hflag⟩ := flag_of_run_takeIf hfixed
  refine .inr ⟨_, _, rest, ?_, .mk hname hkind hnumber hlimits hflag, ?_⟩
  · simp
  · cases e.setParameter p.name value (lower.getD p.lower) (upper.getD p.upper) fixed <;> rfl

/-- A block without a comma and a colon is refused for something other than a limit, or it starts
    with a definition. Then the definition violates a limit, and what follows it is of no account,
    or the block ends with the closing brace after it. -/
theorem run_block_cases (stop remaining : Nat) (hname : name.kind = .identifier)
    (hp : e.kind.parameter? name.text = some p) (hfresh : name.text ∉ defined)
    {tokens : List Token} (htokens : ∀ t ∈ tokens, t.kind ≠ .comma ∧ t.kind ≠ .colon) :
    (∃ cause, (block stop e defined (remaining + 1)).run (name :: tokens) = .error cause ∧
        cause.isLimit = false) ∨
      ∃ taken d rest, tokens = taken ++ rest ∧ Defines (name :: taken) d ∧
        ((∃ e' brace after, rest = brace :: after ∧ brace.kind = .closeBrace ∧
            (block stop e defined (remaining + 1)).run (name :: tokens) = .ok (e', after)) ∨
          ∃ cause, (block stop e defined (remaining + 1)).run (name :: tokens) = .error cause ∧
            ∀ stop', (block stop' e defined (remaining + 1)).run (name :: taken) =
              .error cause) := by
  have hdefinition : definition stop e defined name = assignment stop e p name.position := by
    unfold definition
    simp only [hp, if_neg hfresh]
  obtain ⟨cause, hrun, hcause⟩ | ⟨taken, d, rest, rfl, hdefines, hrun⟩ :=
    run_assignment_cases stop e p name.position hname tokens
  · rw [← hdefinition] at hrun
    exact .inl ⟨cause, run_block_of_definition_error hname hrun, hcause⟩
  rw [← hdefinition] at hrun
  cases hset : e.setParameter p.name d.value (d.lower.getD p.lower) (d.upper.getD p.upper)
      d.fixed with
  | error cause =>
    rw [hset] at hrun
    refine .inr ⟨taken, d, rest, rfl, hdefines, .inr ⟨_, run_block_of_definition_error hname hrun,
      fun stop' => run_block_of_definition_error hname ?_⟩⟩
    rw [← List.append_nil taken, run_definition_of_defines hdefines .nil hp hfresh, hset]
    rfl
  | ok e' =>
    rw [hset] at hrun
    cases rest with
    | nil => exact .inl ⟨_, run_block_of_end hname hrun, rfl⟩
    | cons separator after =>
      obtain ⟨hcomma, hcolon⟩ := htokens separator (by simp)
      by_cases hclose : separator.kind = .closeBrace
      · exact .inr ⟨taken, d, _, rfl, hdefines,
          .inl ⟨e', separator, after, rfl, hclose, run_block_of_close hname hrun hclose⟩⟩
      · exact .inl ⟨.ofToken separator, run_block_of_other hname hrun hcomma hcolon hclose,
          ParseError.isLimit_ofToken separator⟩

end TokenReader

section Circuit

variable {stop : Nat} {symbol brace name : Token} {kind : ElementKind} {p : ParameterDefinition}
  {tokens : List Token}

theorem exists_length_parameters {name : String} (hp : kind.parameter? name = some p) :
    ∃ remaining, kind.parameters.length = remaining + 1 :=
  Nat.exists_eq_succ_of_ne_zero
    (List.length_pos_of_mem (ElementKind.parameter?_eq_some_iff.mp hp).1).ne'

/-- An error in the first block is that of the whole text. -/
theorem parseTokens_of_block_error {cause : ParseError} (hsymbol : symbol.kind = .symbol)
    (hkind : ElementKind.ofSymbol? symbol.text = some kind) (hbrace : brace.kind = .openBrace)
    (h : (TokenReader.block stop (.ofKind kind) [] kind.parameters.length).run tokens =
      .error cause) : parseTokens stop (symbol :: brace :: tokens) = .error cause := by
  change (Items.parseFrom stop [] [] _ >>= _) = _
  rw [Items.parseFrom_of_block_error hsymbol hkind hbrace h]
  rfl

/-- A text that is the symbol of an element and its block is accepted if the block is. -/
theorem exists_parseTokens_of_block {e : Element} (hsymbol : symbol.kind = .symbol)
    (hkind : ElementKind.ofSymbol? symbol.text = some kind) (hbrace : brace.kind = .openBrace)
    (h : (TokenReader.block stop (.ofKind kind) [] kind.parameters.length).run tokens =
      .ok (e, [])) : ∃ c, parseTokens stop (symbol :: brace :: tokens) = .ok c := by
  have hnodes : Items.parseFrom stop [] [] (symbol :: brace :: tokens) = .ok [.leaf e] := by
    have helement := (TokenReader.run_element_of_openBrace hkind hbrace).trans h
    rw [Items.parseFrom_symbol hsymbol helement]
    exact Items.parseFrom_nil
  change ∃ c, (Items.parseFrom stop [] [] _ >>= _) = .ok c
  rw [hnodes]
  exact ⟨_, rfl⟩

/-- If a block with one definition is accepted or refused for a limit, it starts with the tokens of
    a definition. These alone are refused for the limit, or the closing brace comes after them, and
    the text is accepted if it ends there. -/
theorem defines_of_upToLimits (hsymbol : symbol.kind = .symbol)
    (hkind : ElementKind.ofSymbol? symbol.text = some kind) (hbrace : brace.kind = .openBrace)
    (hname : name.kind = .identifier) (hp : kind.parameter? name.text = some p)
    (htokens : ∀ t ∈ tokens, t.kind ≠ .comma ∧ t.kind ≠ .colon)
    (h : UpToLimits (parseTokens stop (symbol :: brace :: name :: tokens))) :
    ∃ taken d rest, tokens = taken ++ rest ∧ Defines (name :: taken) d ∧
      ((∃ close after, rest = close :: after ∧ close.kind = .closeBrace ∧
          (after = [] → ∃ c, parseTokens stop (symbol :: brace :: name :: tokens) = .ok c)) ∨
        ∃ cause, parseTokens stop (symbol :: brace :: name :: tokens) = .error cause ∧
          ∀ stop', parseTokens stop' (symbol :: brace :: name :: taken) = .error cause) := by
  obtain ⟨remaining, hremaining⟩ := exists_length_parameters hp
  have hfresh : name.text ∉ ([] : List String) := List.not_mem_nil
  have hofKind : (Element.ofKind kind).kind.parameter? name.text = some p := hp
  have hblock := TokenReader.run_block_cases stop remaining hname hofKind hfresh htokens
  rw [← hremaining] at hblock
  obtain ⟨cause, hblock, hcause⟩ | ⟨taken, d, rest, htaken, hdefines, hend⟩ := hblock
  · rw [h cause (parseTokens_of_block_error hsymbol hkind hbrace hblock)] at hcause
    cases hcause
  · refine ⟨taken, d, rest, htaken, hdefines, ?_⟩
    obtain ⟨e, close, after, hrest, hclose, hblock⟩ | ⟨cause, hblock, halone⟩ := hend
    · refine .inl ⟨close, after, hrest, hclose, ?_⟩
      rintro rfl
      exact exists_parseTokens_of_block hsymbol hkind hbrace hblock
    · exact .inr ⟨cause, parseTokens_of_block_error hsymbol hkind hbrace hblock,
        fun stop' => parseTokens_of_block_error hsymbol hkind hbrace (halone stop')⟩

/-- A block with one definition of a parameter that there is is accepted, or refused for a
    limit. -/
theorem upToLimits_of_defines {close : Token} {d : Definition} (hsymbol : symbol.kind = .symbol)
    (hkind : ElementKind.ofSymbol? symbol.text = some kind) (hbrace : brace.kind = .openBrace)
    (hp : kind.parameter? name.text = some p) (hdefines : Defines (name :: tokens) d)
    (hclose : close.kind = .closeBrace) :
    UpToLimits (parseTokens stop (symbol :: brace :: name :: (tokens ++ [close]))) := by
  intro e he
  have hname : d.name = name.text := hdefines.name_eq
  have hends : TokenReader.DefinitionEnds [close] := by
    simp [TokenReader.DefinitionEnds, TokenReader.isSlash, TokenReader.isFixedFlag, hclose]
  obtain ⟨remaining, hremaining⟩ := exists_length_parameters hp
  by_cases hvalid : ((⟨kind, [], none⟩ : Leaf).define d).Valid
  · have hblock : (TokenReader.block stop (.ofKind kind) [] kind.parameters.length).run
        (name :: (tokens ++ [close])) = .ok (((⟨kind, [], none⟩ : Leaf).define d).element, []) := by
      rw [hremaining]
      exact TokenReader.run_block_of_close hdefines.name_kind
        (TokenReader.run_definition_of_valid hdefines hends.endsBefore (Leaf.valid_bare kind)
          (by simp) hvalid) hclose
    obtain ⟨c, hc⟩ := exists_parseTokens_of_block hsymbol hkind hbrace hblock
    rw [hc] at he
    cases he
  · obtain ⟨cause, hcause, hdefinition⟩ : ∃ cause, cause.isLimit = true ∧
        (TokenReader.definition stop (.ofKind kind) [] name).run (tokens ++ [close]) =
          .error cause :=
      ⟨_, ParseError.isLimit_ofLimits _ _ _ _ _,
        TokenReader.run_definition_of_not_valid hdefines hends.endsBefore (Leaf.valid_bare kind)
          (by simp) (hname ▸ hp) (by simp) hvalid⟩
    have hblock : (TokenReader.block stop (.ofKind kind) [] kind.parameters.length).run
        (name :: (tokens ++ [close])) = .error cause := by
      rw [hremaining]
      exact TokenReader.run_block_of_definition_error hdefines.name_kind hdefinition
    rw [parseTokens_of_block_error hsymbol hkind hbrace hblock] at he
    cases he
    exact hcause

end Circuit

end CircuitCode
