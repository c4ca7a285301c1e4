import CircuitCode.Proofs.Circuit.Parsed
import CircuitCode.Proofs.Parsing.Diagnostics
import CircuitCode.Proofs.Parsing.Run
import CircuitCode.Proofs.Token.Spaced

/-!
# Errors point at the truth

The position of every error that `parse` gives is a place in the text, and what the error quotes
stands there. Errors that have nothing to quote are at the end of the text, and those of
connections at the bracket that opens the connection (`pointsAt_of_parse`).
-/

namespace CircuitCode

open Grammar

/-- Nodes that cannot be joined are none, or there is only one where there should be branches. -/
theorem Connection.of_ofChildren_eq_error {α : Type} {kind : ConnectionKind}
    {children : List (Node α)} {cause : ConnectionError}
    (h : ofChildren kind children = .error cause) :
    (children.length = 0 ∧ cause = .empty kind) ∨
      (children.length = 1 ∧ kind = .parallel ∧ cause = .insufficientBranches 1) := by
  unfold ofChildren validate at h
  by_cases hzero : children.length = 0
  · rw [if_pos hzero] at h
    cases h
    exact .inl ⟨hzero, rfl⟩
  · rw [if_neg hzero] at h
    split at h
    · next hbranches =>
      obtain hone : children.length = 1 := by omega
      rw [hone] at h
      cases h
      exact .inr ⟨hone, hbranches.1, rfl⟩
    · cases h

namespace Items

variable {stop : Nat} {outer : List OpenConnection} {nodes : List (Node Element)}
  {taken tokens : List Token}

/-- The tokens that led the machine to a state: nodes, and in each open connection its bracket and
    the nodes after it. There is one node in the state for each of them. -/
inductive Opened : List OpenConnection → List (Node Element) → List Token → Prop where
  | outermost {nodes : List (Node Element)} {taken : List Token} {raw : List (Node Leaf)}
      (h : DerivesNodes taken raw) (hlength : raw.length = nodes.length) : Opened [] nodes taken
  | inside {outer : List OpenConnection} {before nodes : List (Node Element)}
      {taken inner : List Token} {opening : Token} {kind : ConnectionKind}
      {raw : List (Node Leaf)} (houter : Opened outer before taken)
      (hopening : opening.kind = (bracketKinds kind).1) (h : DerivesNodes inner raw)
      (hlength : raw.length = nodes.length) :
      Opened (⟨kind, opening.position, before⟩ :: outer) nodes (taken ++ opening :: inner)

theorem Opened.append {first : List Token} {node : Node Leaf} {node' : Node Element}
    (h : Opened outer nodes taken) (hnode : DerivesNode first node) :
    Opened outer (nodes ++ [node']) (taken ++ first) := by
  cases h with
  | outermost hraw hlength =>
    exact .outermost (hraw.append (.singleton hnode)) (by simp [hlength])
  | inside houter hopening hraw hlength =>
    rw [List.append_assoc, List.cons_append]
    exact .inside houter hopening (hraw.append (.singleton hnode)) (by simp [hlength])

/-- A connection with too few nodes is closed, and the error is at the bracket that opens it. -/
theorem Opened.pointsAt_of_ofChildren {inner : OpenConnection} {closing : Token}
    {cause : ConnectionError} (h : Opened (inner :: outer) nodes taken)
    (hclosing : closing.kind = (bracketKinds inner.kind).2)
    (hjoin : Connection.ofChildren inner.kind nodes = .error cause) :
    (ParseError.ofConnectionError inner.position cause).PointsAt
      (.ofTokens stop (taken ++ closing :: tokens)) := by
  cases h with
  | @inside _ _ _ taken enclosed opening kind raw houter hopening hraw hcount =>
    have hencloses : Encloses (taken ++ opening :: enclosed ++ closing :: tokens) kind
        opening.position raw.length :=
      ⟨taken, opening, enclosed, closing, tokens, raw, by simp, hopening, rfl, hraw, rfl, hclosing⟩
    obtain ⟨hzero, rfl⟩ | ⟨hone, rfl, rfl⟩ := Connection.of_ofChildren_eq_error hjoin
    · exact ⟨kind, (hcount.trans hzero) ▸ hencloses⟩
    · exact (hcount.trans hone) ▸ hencloses

/-- A closing bracket is quoted as it is written. -/
theorem pointsAt_closing {closing : Token} {kind : ConnectionKind}
    (hclosing : closing.kind = (bracketKinds kind).2)
    (hspelled : ∀ c, TokenKind.punctuation? c = some closing.kind →
      closing.text = String.singleton c) :
    (ParseError.unexpectedToken closing.position kind.brackets.2).PointsAt
      (.ofTokens stop (taken ++ closing :: tokens)) := by
  refine ⟨closing, List.mem_append_right _ List.mem_cons_self, rfl, ?_⟩
  cases kind with
  | series => exact hspelled ']' (by rw [hclosing]; rfl)
  | parallel => exact hspelled ')' (by rw [hclosing]; rfl)

/-- A closing bracket without a connection of its kind is not accepted. -/
theorem parseFrom_closing_mismatch {closing : Token} {kind : ConnectionKind}
    (hclosing : closing.kind = (bracketKinds kind).2)
    (h : ∀ inner outer', outer = inner :: outer' → inner.kind ≠ kind) :
    parseFrom stop outer nodes (closing :: tokens) =
      .error (.unexpectedToken closing.position kind.brackets.2) := by
  unfold parseFrom
  rw [ofTokens_closing hclosing]
  cases outer with
  | nil => simp [cons, join]
  | cons inner outer =>
    simp only [cons]
    rw [join]
    simp [h inner outer rfl]

theorem parseFrom_closing_error {closing : Token} {inner : OpenConnection}
    {cause : ConnectionError} (hclosing : closing.kind = (bracketKinds inner.kind).2)
    (h : Connection.ofChildren inner.kind nodes = .error cause) :
    parseFrom stop (inner :: outer) nodes (closing :: tokens) =
      .error (.ofConnectionError inner.position cause) := by
  unfold parseFrom
  rw [ofTokens_closing hclosing]
  simp [cons, join, h]

/-- Errors of the machine point at the tokens that led it to its state or at those still to come.
    The induction is on the number of the latter. -/
theorem pointsAt_of_parseFrom (length : Nat) {e : ParseError} (hlength : tokens.length ≤ length)
    (hopened : Opened outer nodes taken) (hlabels : LabelsTrimmed tokens)
    (hspelled : Spelled tokens)
    (h : parseFrom stop outer nodes tokens = .error e) :
    e.PointsAt (.ofTokens stop (taken ++ tokens)) := by
  induction length generalizing outer nodes taken tokens with
  | zero =>
    obtain rfl : tokens = [] := by simpa using hlength
    cases outer with
    | nil =>
      rw [parseFrom_nil] at h
      cases h
    | cons inner outer =>
      simp only [parseFrom, ofTokens, join, Except.error.injEq] at h
      rw [← h]
      rfl
  | succ length ih =>
    cases tokens with
    | nil => exact ih (by simp) hopened hlabels hspelled h
    | cons token tokens =>
      have hlabels' := hlabels.of_suffix (List.suffix_cons token tokens)
      obtain ⟨hmark, hspelled'⟩ := List.forall_mem_cons.mp hspelled
      rw [List.length_cons] at hlength
      by_cases hsymbol : token.kind = .symbol
      · cases hread : (TokenReader.element stop token).run tokens with
        | error cause =>
          rw [parseFrom_of_fail (ofTokens_symbol_error hsymbol hread)] at h
          cases h
          have hmem : token ∈ [token] := List.mem_singleton_self token
          have hreports := TokenReader.reports_element hmem tokens _ hread
          exact hreports.of_reader (List.subset_append_right _ _)
        | ok read =>
          obtain ⟨element, rest⟩ := read
          obtain ⟨block, kind, definitions, label, rfl, hkind, hblock, -, -⟩ :=
            TokenReader.derives_of_run_element hlabels' hread
          rw [parseFrom_symbol hsymbol hread] at h
          rw [List.length_append] at hlength
          have := ih (by omega) (hopened.append (.element hsymbol hkind hblock))
            (hlabels'.of_suffix (List.suffix_append _ _))
            (fun t ht => hspelled' t (List.mem_append_right _ ht)) h
          simpa using this
      by_cases hopening : ∃ kind, token.kind = (bracketKinds kind).1
      · obtain ⟨kind, hopening⟩ := hopening
        rw [parseFrom_opening hopening] at h
        have := ih (by omega) (.inside hopened hopening .nil rfl) hlabels' hspelled' h
        simpa using this
      by_cases hclosing : ∃ kind, token.kind = (bracketKinds kind).2
      · obtain ⟨kind, hclosing⟩ := hclosing
        by_cases hinner : ∃ inner outer', outer = inner :: outer' ∧ inner.kind = kind
        · obtain ⟨inner, outer, rfl, rfl⟩ := hinner
          cases hjoin : Connection.ofChildren inner.kind nodes with
          | error cause =>
            rw [parseFrom_closing_error hclosing hjoin] at h
            cases h
            exact hopened.pointsAt_of_ofChildren hclosing hjoin
          | ok c =>
            cases hopened with
            | inside houter hopening hraw hcount =>
              obtain ⟨hleast, -⟩ := Connection.ofChildren_eq_ok_iff.mp hjoin
              rw [← hcount] at hleast
              rw [parseFrom_closing hclosing hjoin] at h
              have := ih (by omega)
                (houter.append (.connection hopening hraw hleast hclosing)) hlabels' hspelled' h
              simpa using this
        · have hmismatch : ∀ inner outer', outer = inner :: outer' → inner.kind ≠ kind :=
            fun inner outer' houter hkind => hinner ⟨inner, outer', houter, hkind⟩
          rw [parseFrom_closing_mismatch hclosing hmismatch] at h
          cases h
          exact pointsAt_closing hclosing hmark
      · rw [parseFrom_of_fail (ofTokens_other hsymbol (not_exists.mp hopening)
          (not_exists.mp hclosing))] at h
        cases h
        exact ⟨token, List.mem_append_right _ List.mem_cons_self, rfl, rfl⟩

end Items

/-- A text starts like this at a position. -/
def StandsAt (text : String) (position : Nat) (piece : String) : Prop :=
  ∃ before after, text = before ++ piece ++ after ∧ byteLength before.toList = position

/-- A position does not lie within a character, nor behind the end of the text. -/
def IsBoundary (text : String) (position : Nat) : Prop := StandsAt text position ""

theorem StandsAt.isBoundary {text piece : String} {position : Nat}
    (h : StandsAt text position piece) : IsBoundary text position := by
  obtain ⟨before, after, rfl, hposition⟩ := h
  exact ⟨before, piece ++ after, by simp [String.append_assoc], hposition⟩

theorem IsBoundary.le {text : String} {position : Nat} (h : IsBoundary text position) :
    position ≤ byteLength text.toList := by
  obtain ⟨before, after, rfl, rfl⟩ := h
  simp only [String.toList_append, byteLength_append]
  omega

/-- What errors point at in a text. What is quoted is a token, or the character with which none can
    start. -/
def Landmarks.ofText (text : String) : Landmarks where
  ends position := position = byteLength text.toList
  shows position piece := StandsAt text position piece ∧
    (Shows (tokenize text).tokens position piece ∨
      ∃ c, piece = String.singleton c ∧ (tokenize text).stray = some ⟨position, c⟩)
  equals position := StandsAt text position "="
  opens kind position branches := StandsAt text position kind.brackets.1 ∧
    Encloses (tokenize text).tokens kind position branches

theorem ParseError.PointsAt.isBoundary {text : String} {e : ParseError}
    (h : e.PointsAt (.ofText text)) : IsBoundary text e.position := by
  have hends {position : Nat} (h : position = byteLength text.toList) :
      IsBoundary text position := ⟨text, "", by simp, h.symm⟩
  cases e with
  | connectionWithoutElements position =>
    obtain ⟨kind, hstands, -⟩ := h
    exact hstands.isBoundary
  | insufficientBranches position branches => exact h.1.isBoundary
  | insufficientTokens position context => exact hends h
  | expectedNumber position found =>
    cases found with
    | none => exact hends h
    | some piece => exact h.1.isBoundary
  | expectedIdentifier position => exact StandsAt.isBoundary h
  | tooManyParameters position symbol expected =>
    obtain ⟨name, hstands, -⟩ := h
    exact hstands.isBoundary
  | _ => exact h.1.isBoundary

/-- A token stands where it says. -/
theorem standsAt_of_mem_tokenize {text : String} {token : Token}
    (h : token ∈ (tokenize text).tokens) : StandsAt text token.position token.text := by
  obtain ⟨before, after, htext, hposition, -⟩ := (lossless_tokenize text).verbatim token h
  refine ⟨String.ofList before, String.ofList after, ?_, by rw [String.toList_ofList, hposition]⟩
  apply String.toList_injective
  simp [htext]

theorem ParseError.PointsAt.of_tokens {text : String} {e : ParseError}
    (h : e.PointsAt (.ofTokens (byteLength text.toList) (tokenize text).tokens)) :
    e.PointsAt (.ofText text) := by
  have hspelled : Spelled (tokenize text).tokens := spelled_scanFrom _ _
  refine h.mono (fun _ => id) ?_ ?_ ?_
  · rintro position piece ⟨token, hmem, rfl, rfl⟩
    exact ⟨standsAt_of_mem_tokenize hmem, .inl ⟨token, hmem, rfl, rfl⟩⟩
  · rintro position ⟨token, hmem, rfl, hkind⟩
    have htext : token.text = "=" := hspelled token hmem '=' (by rw [hkind]; rfl)
    have hstands := standsAt_of_mem_tokenize hmem
    rwa [htext] at hstands
  · rintro kind position branches hencloses
    refine ⟨?_, hencloses⟩
    obtain ⟨before, opening, inner, closing, after, raw, htokens, hopening, rfl, -⟩ := hencloses
    have hmem : opening ∈ (tokenize text).tokens := by simp [htokens]
    have htext : opening.text = kind.brackets.1 := by
      cases kind with
      | series => exact hspelled opening hmem '[' (by rw [hopening]; rfl)
      | parallel => exact hspelled opening hmem '(' (by rw [hopening]; rfl)
    exact htext ▸ standsAt_of_mem_tokenize hmem

theorem pointsAt_of_parseTokens {stop : Nat} {tokens : List Token} {e : ParseError}
    (hlabels : LabelsTrimmed tokens) (hspelled : Spelled tokens)
    (h : parseTokens stop tokens = .error e) : e.PointsAt (.ofTokens stop tokens) := by
  change (Items.parseFrom stop [] [] tokens >>= _) = _ at h
  cases hnodes : Items.parseFrom stop [] [] tokens with
  | error cause =>
    rw [hnodes] at h
    cases h
    exact Items.pointsAt_of_parseFrom _ (Nat.le_refl _) (.outermost .nil rfl) hlabels hspelled
      hnodes
  | ok nodes =>
    rw [hnodes] at h
    simp only [bind, Except.bind] at h
    split at h
    · cases h
    · cases h
      rfl

/-- For every text that is refused, the error's position is a place in the text; a token, symbol or
    name that it quotes stands there; if it says that the text ends too early, the position is the
    end; if it is about a connection, the bracket that opens this stands there, and there are as
    many branches up to the closing bracket as it says; and where it misses a name there is an
    equals sign. -/
theorem pointsAt_of_parse {text : String} {e : ParseError} (h : parse text = .error e) :
    e.position ≤ byteLength text.toList ∧ IsBoundary text e.position ∧
      e.PointsAt (.ofText text) := by
  have hpoints : e.PointsAt (.ofText text) := by
    cases hstray : (tokenize text).stray with
    | none =>
      simp only [parse, Parser.process, hstray] at h
      exact .of_tokens (pointsAt_of_parseTokens (labelsTrimmed_tokenize text)
        (spelled_scanFrom _ _) h)
    | some stray =>
      simp only [parse, Parser.process, hstray, Except.error.injEq] at h
      rw [← h]
      obtain ⟨⟨before, after, htext, hposition⟩, -⟩ := (lossless_tokenize text).stray stray hstray
      refine ⟨⟨String.ofList before, String.ofList after, ?_, ?_⟩, .inr ⟨stray.char, rfl, hstray⟩⟩
      · apply String.toList_injective
        simp [htext]
      · rw [String.toList_ofList, hposition]
  exact ⟨hpoints.isBoundary.le, hpoints.isBoundary, hpoints⟩

/-- The second pair of brackets holds one branch only. -/
theorem pointsAt_of_parse_singleBranch :
    parse "[R(L)]" = .error (.insufficientBranches 2 1) ∧ 2 ≤ byteLength "[R(L)]".toList ∧
      IsBoundary "[R(L)]" 2 ∧
      (ParseError.insufficientBranches 2 1).PointsAt (.ofText "[R(L)]") := by
  have hparse : parse "[R(L)]" = .error (.insufficientBranches 2 1) := by decide +kernel
  exact ⟨hparse, pointsAt_of_parse hparse⟩

end CircuitCode
