import CircuitCode.Proofs.Element.Change
import CircuitCode.Proofs.Parsing.Definition
import CircuitCode.Proofs.Parsing.Places

/-!
# What errors point at

An error says where in the text it was found and quotes what stands there. Here this is said of the
tokens: each error that a reader or the machine gives is about one of the tokens it was given, or
about the end of the text (`ParseError.PointsAt`). A connection that cannot be joined is found at
its closing bracket, so the machine keeps account of the tokens since the opening one
(`Opened`).
-/

namespace CircuitCode

open Grammar

/-- The places that an error may point at. -/
structure Landmarks where
  /-- The text ends at a position. -/
  ends : Nat → Prop
  /-- What stands at a position. -/
  shows : Nat → String → Prop
  /-- An equals sign stands at a position. -/
  equals : Nat → Prop
  /-- A connection with some number of branches is opened at a position. -/
  opens : ConnectionKind → Nat → Nat → Prop

namespace ParseError

/-- What an error says of its position. -/
def PointsAt (m : Landmarks) : ParseError → Prop
  | connectionWithoutElements position => ∃ kind, m.opens kind position 0
  | insufficientBranches position branches => m.opens .parallel position branches
  | insufficientTokens position _ => m.ends position
  | unexpectedToken position text => m.shows position text
  | invalidSymbol position symbol => m.shows position symbol
  | duplicateParameter position name => m.shows position name
  | expectedNumber position none => m.ends position
  | expectedNumber position (some text) => m.shows position text
  | expectedIdentifier position => m.equals position
  | unknownParameter position _ name => m.shows position name
  | lowerLimit position name _ _ => m.shows position name
  | upperLimit position name _ _ => m.shows position name
  | tooManyParameters position _ _ => ∃ name, m.shows position name

theorem PointsAt.mono {m m' : Landmarks} {e : ParseError} (h : e.PointsAt m)
    (hends : ∀ position, m.ends position → m'.ends position)
    (hshows : ∀ position text, m.shows position text → m'.shows position text)
    (hequals : ∀ position, m.equals position → m'.equals position)
    (hopens : ∀ kind position branches,
      m.opens kind position branches → m'.opens kind position branches) : e.PointsAt m' := by
  cases e with
  | connectionWithoutElements position =>
    obtain ⟨kind, h⟩ := h
    exact ⟨kind, hopens kind position 0 h⟩
  | insufficientBranches position branches => exact hopens _ _ _ h
  | insufficientTokens position _ => exact hends _ h
  | expectedNumber position found =>
    cases found with
    | none => exact hends _ h
    | some text => exact hshows _ _ h
  | expectedIdentifier position => exact hequals _ h
  | tooManyParameters position _ _ =>
    obtain ⟨name, h⟩ := h
    exact ⟨name, hshows position name h⟩
  | _ => exact hshows _ _ h

end ParseError

/-- A token with this text is among the tokens and stands at this position. -/
def Shows (tokens : List Token) (position : Nat) (text : String) : Prop :=
  ∃ token ∈ tokens, token.position = position ∧ token.text = text

/-- The tokens of a connection are among the tokens, with this position and as many branches. -/
def Encloses (tokens : List Token) (kind : ConnectionKind) (position branches : Nat) : Prop :=
  ∃ before opening inner closing after raw,
    tokens = before ++ opening :: (inner ++ closing :: after) ∧
      opening.kind = (bracketKinds kind).1 ∧ opening.position = position ∧
      DerivesNodes inner raw ∧ raw.length = branches ∧ closing.kind = (bracketKinds kind).2

/-- What the errors of a reader point at. -/
def Landmarks.ofReader (stop : Nat) (tokens : List Token) : Landmarks where
  ends position := position = stop
  shows := Shows tokens
  equals position := ∃ token ∈ tokens, token.position = position ∧ token.kind = .equals
  opens _ _ _ := False

/-- What the errors of the machine point at. -/
def Landmarks.ofTokens (stop : Nat) (tokens : List Token) : Landmarks :=
  { ofReader stop tokens with opens := Encloses tokens }

theorem ParseError.PointsAt.of_reader {stop : Nat} {tokens tokens' : List Token} {e : ParseError}
    {opens : ConnectionKind → Nat → Nat → Prop} (h : e.PointsAt (.ofReader stop tokens))
    (hsubset : tokens ⊆ tokens') :
    e.PointsAt { Landmarks.ofReader stop tokens' with opens := opens } := by
  refine h.mono (fun _ => id) ?_ ?_ nofun
  · rintro position text ⟨token, hmem, htoken⟩
    exact ⟨token, hsubset hmem, htoken⟩
  · rintro position ⟨token, hmem, htoken⟩
    exact ⟨token, hsubset hmem, htoken⟩

/-- The parameters of an element are those of its kind. -/
def Element.Registered (e : Element) : Prop :=
  e.parameters.map Parameter.name = e.kind.parameters.map ParameterDefinition.name

theorem Element.registered_ofKind (kind : ElementKind) : (ofKind kind).Registered := by
  unfold Registered ofKind
  rw [List.map_map]
  rfl

theorem Element.Registered.of_setParameter {e e' : Element} {name : String}
    {value lower upper : Number} {fixed : Bool} (he : e.Registered)
    (h : e.setParameter name value lower upper fixed = .ok e') :
    e'.Registered := by
  have hchanged : e.changed (.parameter name value lower upper fixed) = e' :=
    congrArg Prod.fst (accepted_eq_ok_iff.mp h)
  rw [← hchanged, Registered, names_changed, kind_changed]
  exact he

namespace TokenReader

variable {α β : Type} {stop : Nat} {seen : List Token}

/-- The errors of a reader point at the tokens that it is given or at those seen before them. -/
def Reports (stop : Nat) (seen : List Token) (reader : TokenReader α) : Prop :=
  ∀ tokens e, reader.run tokens = .error e → e.PointsAt (.ofReader stop (seen ++ tokens))

theorem reports_of_ok {reader : TokenReader α} {f : List Token → α × List Token}
    (h : ∀ tokens, reader.run tokens = .ok (f tokens)) : Reports stop seen reader := by
  intro tokens e he
  rw [h] at he
  cases he

theorem reports_pure (a : α) : Reports stop seen (pure a) := reports_of_ok fun _ => rfl

theorem reports_nextIs (test : Token → Bool) : Reports stop seen (nextIs test) :=
  reports_of_ok fun _ => rfl

theorem reports_takeIf (test : Token → Bool) : Reports stop seen (takeIf test) :=
  reports_of_ok fun _ => rfl

theorem reports_throw {e : ParseError} (h : e.PointsAt (.ofReader stop seen)) :
    Reports stop seen (throw e : TokenReader α) := by
  intro tokens e' he
  cases he
  exact h.of_reader (List.subset_append_left _ _)

theorem Reports.bind {reader : TokenReader α} {next : α → TokenReader β}
    (h : Reports stop seen reader) (hconsumes : Consumes reader)
    (hnext : ∀ tokens a rest, reader.run tokens = .ok (a, rest) → Reports stop seen (next a)) :
    Reports stop seen (reader >>= next) := by
  intro tokens e he
  cases hread : reader.run tokens with
  | error cause =>
    rw [run_bind_of_error hread] at he
    cases he
    exact h tokens _ hread
  | ok read =>
    obtain ⟨a, rest⟩ := read
    rw [run_bind_of_ok hread] at he
    have hrest : rest ⊆ tokens := (hconsumes tokens a rest hread).subset
    exact (hnext tokens a rest hread rest e he).of_reader
      (List.append_subset.mpr ⟨List.subset_append_left _ _,
        List.Subset.trans hrest (List.subset_append_right _ _)⟩)

theorem Reports.throw_bind {e : ParseError} {next : α → TokenReader β}
    (h : e.PointsAt (.ofReader stop seen)) :
    Reports stop seen ((throw e : TokenReader α) >>= next) := by
  intro tokens e' he
  rw [run_bind_of_error rfl] at he
  cases he
  exact h.of_reader (List.subset_append_left _ _)

/-- What comes after a token may point at it. -/
theorem Reports.token_bind {context : ParseContext} {next : Token → TokenReader β}
    (hnext : ∀ token, Reports stop (token :: seen) (next token)) :
    Reports stop seen (token stop context >>= next) := by
  intro tokens e he
  cases tokens with
  | nil =>
    cases he
    rfl
  | cons first rest =>
    rw [run_bind_of_ok (run_token_eq_ok_iff.mpr rfl)] at he
    refine (hnext first rest e he).of_reader ?_
    rintro token hmem
    simp only [List.cons_append, List.mem_cons, List.mem_append] at hmem ⊢
    tauto

/-- A token that may not stand where it does is pointed at. -/
theorem pointsAt_ofToken {token : Token} (h : token ∈ seen) :
    (ParseError.ofToken token).PointsAt (.ofReader stop seen) :=
  ⟨token, h, rfl, rfl⟩

theorem Reports.ofKind_bind {kind : TokenKind} {context : ParseContext}
    {next : Token → TokenReader β} (hnext : ∀ token, Reports stop (token :: seen) (next token)) :
    Reports stop seen (ofKind stop kind context >>= next) := by
  unfold ofKind
  rw [bind_assoc]
  refine .token_bind fun token => ?_
  split
  · rw [pure_bind]
    exact hnext token
  · exact .throw_bind (pointsAt_ofToken List.mem_cons_self)

theorem reports_number : Reports stop seen (number stop) := by
  intro tokens e he
  cases tokens with
  | nil =>
    cases he
    rfl
  | cons token rest =>
    simp only [number, StateT.run] at he
    split at he
    · cases he
    · cases he
      exact ⟨token, List.mem_append_right _ List.mem_cons_self, rfl, rfl⟩

variable {definition : ParameterDefinition}

theorem reports_lowerLimit : Reports stop seen (lowerLimit stop definition) := by
  refine (reports_nextIs _).bind (consumes_nextIs _) fun _ _ _ _ => ?_
  split
  · exact reports_pure _
  · exact reports_number

theorem reports_upperLimit : Reports stop seen (upperLimit stop definition) := by
  refine (reports_takeIf _).bind (consumes_takeIf _) fun _ _ _ _ => ?_
  split
  · exact reports_number
  · exact reports_pure _

theorem consumes_lowerLimit : Consumes (lowerLimit stop definition) :=
  (consumes_nextIs _).bind fun _ => (consumes_pure _).ite (consumes_number stop)

theorem consumes_upperLimit : Consumes (upperLimit stop definition) :=
  (consumes_takeIf _).bind fun _ => (consumes_number stop).ite (consumes_pure _)

theorem reports_limits : Reports stop seen (limits stop definition) := by
  refine (reports_takeIf _).bind (consumes_takeIf _) fun _ _ _ _ => ?_
  split
  · exact reports_lowerLimit.bind consumes_lowerLimit fun _ _ _ _ =>
      reports_upperLimit.bind consumes_upperLimit fun _ _ _ _ => reports_pure _
  · exact reports_pure _

/-- Numbers that are read, and limits of a kind, can be compared. -/
theorem isNaN_of_run_limits {tokens rest : List Token} {l u : Number}
    (hlower : definition.lower.isNaN = false) (hupper : definition.upper.isNaN = false)
    (h : (limits stop definition).run tokens = .ok ((l, u), rest)) :
    l.isNaN = false ∧ u.isNaN = false := by
  have hnumber {tokens rest : List Token} {x : Number}
      (h : (number stop).run tokens = .ok (x, rest)) : x.isNaN = false := by
    obtain ⟨token, -, hnumeral⟩ := run_number_eq_ok_iff.mp h
    exact hnumeral.isNaN
  unfold limits at h
  obtain ⟨slash, middle, -, h⟩ := run_bind_eq_ok_iff.mp h
  split at h
  · obtain ⟨l', middle, hreadLower, h⟩ := run_bind_eq_ok_iff.mp h
    obtain ⟨u', middle', hreadUpper, h⟩ := run_bind_eq_ok_iff.mp h
    obtain ⟨hlu, -⟩ := run_pure_eq_ok_iff.mp h
    cases hlu
    constructor
    · unfold lowerLimit at hreadLower
      obtain ⟨empty, middle, -, h⟩ := run_bind_eq_ok_iff.mp hreadLower
      split at h
      · rwa [(run_pure_eq_ok_iff.mp h).1]
      · exact hnumber h
    · unfold upperLimit at hreadUpper
      obtain ⟨present, middle, -, h⟩ := run_bind_eq_ok_iff.mp hreadUpper
      split at h
      · exact hnumber h
      · rwa [(run_pure_eq_ok_iff.mp h).1]
  · obtain ⟨hlu, -⟩ := run_pure_eq_ok_iff.mp h
    cases hlu
    exact ⟨hlower, hupper⟩

theorem Reports.name_bind {next : Token → TokenReader β}
    (hnext : ∀ name, Reports stop (name :: seen) (next name)) :
    Reports stop seen (name stop >>= next) := by
  unfold name
  rw [bind_assoc]
  refine .token_bind fun token => ?_
  split
  · rw [pure_bind]
    exact hnext token
  · next hkind =>
    have hpoints : (ParseError.expectedIdentifier token.position).PointsAt
        (.ofReader stop (token :: seen)) := ⟨token, List.mem_cons_self, rfl, hkind⟩
    exact .throw_bind hpoints
  · exact .throw_bind (pointsAt_ofToken List.mem_cons_self)

theorem pointsAt_ofLimits {name : Token} {value lower upper : Number} (h : name ∈ seen) :
    (ParseError.ofLimits name.position name.text value lower upper).PointsAt
      (.ofReader stop seen) := by
  unfold ParseError.ofLimits
  split
  · exact ⟨name, h, rfl, rfl⟩
  · exact ⟨name, h, rfl, rfl⟩

/-- A definition that is refused is refused for a limit, which names the parameter. -/
theorem reports_assignment {e : Element} {name : Token} (he : e.Registered)
    (hp : e.kind.parameter? name.text = some definition) (hname : name ∈ seen) :
    Reports stop seen (assignment stop e definition name.position) := by
  obtain ⟨hmem, hpname⟩ := ElementKind.parameter?_eq_some_iff.mp hp
  obtain ⟨hlower, hupper⟩ := e.kind.isNaN_limits definition hmem
  refine .ofKind_bind fun equals => ?_
  refine reports_number.bind (consumes_number stop) fun _ value _ hvalue => ?_
  refine reports_limits.bind (consumes_limits stop definition) fun _ limits _ hlimits => ?_
  refine (reports_takeIf _).bind (consumes_takeIf _) fun _ fixed _ _ => ?_
  split
  · exact reports_pure _
  · next cause hset =>
    obtain ⟨token, -, hnumeral⟩ := run_number_eq_ok_iff.mp hvalue
    obtain ⟨hl, hu⟩ := isNaN_of_run_limits hlower hupper hlimits
    have hregistered : definition.name ∈ e.parameters.map Parameter.name := by
      rw [he]
      exact List.mem_map_of_mem hmem
    have hrange := Element.checkRange_of_setParameter hregistered hset
    rw [ParseError.ofElementError_of_checkRange hnumeral.isNaN hl hu hrange, hpname]
    exact reports_throw (pointsAt_ofLimits (List.mem_cons_of_mem _ hname))

theorem registered_of_run_assignment {e e' : Element} {position : Nat}
    {tokens rest : List Token} (he : e.Registered)
    (h : (assignment stop e definition position).run tokens = .ok (e', rest)) :
    e'.Registered := by
  unfold assignment at h
  obtain ⟨_, _, -, h⟩ := run_bind_eq_ok_iff.mp h
  obtain ⟨value, _, -, h⟩ := run_bind_eq_ok_iff.mp h
  obtain ⟨limits, _, -, h⟩ := run_bind_eq_ok_iff.mp h
  obtain ⟨fixed, _, -, h⟩ := run_bind_eq_ok_iff.mp h
  split at h
  · next hset =>
    obtain ⟨rfl, -⟩ := run_pure_eq_ok_iff.mp h
    exact he.of_setParameter hset
  · exact absurd h run_throw_ne_ok

theorem reports_definition {e : Element} {defined : List String} {name : Token}
    (he : e.Registered) (hname : name ∈ seen) :
    Reports stop seen (TokenReader.definition stop e defined name) := by
  unfold TokenReader.definition
  split
  · exact reports_throw ⟨name, hname, rfl, rfl⟩
  · next p hp =>
    split
    · exact reports_throw ⟨name, hname, rfl, rfl⟩
    · exact reports_assignment he hp hname

theorem registered_of_run_definition {e e' : Element} {defined : List String} {name : Token}
    {tokens rest : List Token} (he : e.Registered)
    (h : (TokenReader.definition stop e defined name).run tokens = .ok (e', rest)) :
    e'.Registered := by
  unfold TokenReader.definition at h
  split at h
  · exact absurd h run_throw_ne_ok
  · split at h
    · exact absurd h run_throw_ne_ok
    · exact registered_of_run_assignment he h

theorem reports_label {e : Element} : Reports stop seen (label stop e) := by
  refine .ofKind_bind fun text => ?_
  split
  · exact reports_throw (pointsAt_ofToken List.mem_cons_self)
  · exact .ofKind_bind fun _ => reports_pure _

theorem reports_block {e : Element} {defined : List String} {remaining : Nat}
    (he : e.Registered) : Reports stop seen (block stop e defined remaining) := by
  induction remaining generalizing e defined seen with
  | zero =>
    unfold block
    exact .name_bind fun name => reports_throw ⟨name.text, name, List.mem_cons_self, rfl, rfl⟩
  | succ remaining ih =>
    unfold block
    refine .name_bind fun name => ?_
    refine (reports_definition he List.mem_cons_self).bind (consumes_definition stop e _ _)
      fun _ e' _ hread => ?_
    refine .token_bind fun separator => ?_
    split
    · exact ih (registered_of_run_definition he hread)
    · exact reports_pure _
    · exact reports_label
    · exact reports_throw (pointsAt_ofToken List.mem_cons_self)

theorem reports_element {symbol : Token} (h : symbol ∈ seen) :
    Reports stop seen (element stop symbol) := by
  unfold element
  split
  · exact reports_throw ⟨symbol, h, rfl, rfl⟩
  · next kind hkind =>
    refine (reports_takeIf _).bind (consumes_takeIf _) fun _ _ _ _ => ?_
    split
    · exact reports_block (Element.registered_ofKind kind)
    · exact reports_pure _

end TokenReader

end CircuitCode
