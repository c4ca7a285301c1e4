import CircuitCode.Proofs.Circuit.Parsed
import CircuitCode.Proofs.Parsing.Closed
import CircuitCode.Proofs.Parsing.Truncation
import CircuitCode.Proofs.Token.Truncation

/-!
# Texts that end too early

Of a text that is circuit code only a part is parsed, up to the end of one of its tokens. The part
has these tokens, so it may be circuit code too; otherwise what is missing is said, at the end of
the part (`cropped_parse`).
-/

namespace CircuitCode

open Grammar

namespace Grammar

mutual

theorem DerivesNode.exists_ofSymbol? {tokens : List Token} {node : Node Leaf}
    (h : DerivesNode tokens node) : ∀ token ∈ tokens, token.kind = .symbol →
      ∃ kind, ElementKind.ofSymbol? token.text = some kind := by
  cases h with
  | element hsymbol hkind hblock =>
    refine List.forall_mem_cons.mpr ⟨fun _ => ⟨_, hkind⟩, ?_⟩
    cases hblock with
    | absent => exact nofun
    | present hbrace hbody =>
      refine List.forall_mem_cons.mpr ⟨fun h => ?_, fun token hmem h => ?_⟩
      · rw [hbrace] at h
        cases h
      · exact absurd h (hbody.kind_ne (by decide) token hmem)
  | @connection _ _ _ kind _ hopening hinner _ hclosing =>
    refine List.forall_mem_cons.mpr ⟨fun h => ?_, List.forall_mem_append.mpr
      ⟨hinner.exists_ofSymbol?, List.forall_mem_singleton.mpr fun h => ?_⟩⟩
    · rw [hopening] at h
      cases kind <;> cases h
    · rw [hclosing] at h
      cases kind <;> cases h

/-- Every symbol among the tokens of nodes is that of a kind of elements. -/
theorem DerivesNodes.exists_ofSymbol? {tokens : List Token} {nodes : List (Node Leaf)}
    (h : DerivesNodes tokens nodes) : ∀ token ∈ tokens, token.kind = .symbol →
      ∃ kind, ElementKind.ofSymbol? token.text = some kind := by
  cases h with
  | nil => exact nofun
  | cons hnode hnodes =>
    exact List.forall_mem_append.mpr ⟨hnode.exists_ofSymbol?, hnodes.exists_ofSymbol?⟩

end

end Grammar

/-- A text ends right after the last of some tokens. Without tokens it is empty. -/
def EndsAfter (text : String) (tokens : List Token) : Prop :=
  byteLength text.toList = (tokens.getLast?.map Token.stop).getD 0

/-- For every text that is circuit code, a part of it up to the end of one of its tokens, or the
    empty part, is circuit code or fails at its end: a number is expected there exactly if the last
    token is an equals sign or a slash, otherwise there are too few tokens. The only other error is
    that a definition at its end violates a limit of the kind in place of which the text goes on to
    give another one. -/
theorem cropped_parse {text start rest : String} {c : Circuit} {before after : List Token}
    (h : parse text = .ok c) (htext : text = start ++ rest)
    (htokens : (tokenize text).tokens = before ++ after) (hends : EndsAfter start before) :
    Cropped (byteLength start.toList) before after (parse start) := by
  obtain ⟨hstray, raw, -, hraw, hvalid, -⟩ := parse_eq_ok_iff.mp h
  have hlabels := labelsTrimmed_tokenize text
  have hscan : scanFrom .outside (.start text.toList) = ⟨before ++ after, none⟩ := by
    rw [← htokens, ← hstray]
    rfl
  have htruncated :
      Truncated .outside (.start text.toList) start.toList rest.toList before after := by
    refine ⟨by rw [htext]; simp [Cursor.start], hscan, ?_, ?_, ?_⟩
    · rintro rfl
      exact eq_nil_of_byteLength hends
    · intro last hlast
      rw [EndsAfter, Option.mem_def.mp hlast] at hends
      rw [hends]
      exact (Nat.zero_add _).symm
    · intro token htoken hkind
      have hmem : token ∈ (tokenize text).tokens := by
        rw [htokens]
        exact List.mem_append_left _ htoken
      obtain ⟨kind, hsymbol⟩ := hraw.exists_ofSymbol? token hmem hkind
      constructor <;> intro htext <;> rw [htext] at hsymbol <;> cases hsymbol
  obtain ⟨kept, hkept, hkeeps⟩ := htruncated.exists_scanFrom
  have hparse : parse start = parseTokens (byteLength start.toList) kept := by
    have htokenize : tokenize start = ⟨kept, none⟩ := hkept
    simp only [parse, Parser.process, htokenize]
  rw [htokens] at hraw hlabels
  rw [hparse]
  cases hkeeps with
  | all => exact cropped_parseTokens hraw hvalid hlabels rfl
  | @label _ label hbefore hkind htext hmode hcolon =>
    -- the empty label is no token of the part, which ends with the colon
    subst hbefore
    have hends : ¬ EndsOpen (kept ++ [label]) := by
      rw [endsOpen_append_singleton, hkind]
      decide
    have hcropped : Cropped (byteLength start.toList) kept ([label] ++ after)
        (parseTokens (byteLength start.toList) kept) :=
      cropped_parseTokens hraw hvalid hlabels (List.append_assoc kept [label] after)
    generalize parseTokens (byteLength start.toList) kept = result at hcropped ⊢
    cases hcropped with
    | ok => exact .ok hends
    | tokens => exact .tokens hends
    | number hopen =>
      obtain ⟨last, hlast, hopen⟩ := hopen
      simp [hcolon last hlast] at hopen
    | limit _ hlimit =>
      obtain ⟨last, hlast, hnumber⟩ := hlimit.exists_getLast?
      simp [hcolon last hlast] at hnumber

/-- The lower limit that the text goes on to give is missing at the end of the part. -/
theorem cropped_parse_zeroTimeConstant :
    ∃ c before after, parse "K\x7bt=0/0\x7d" = .ok c ∧
      (tokenize "K\x7bt=0/0\x7d").tokens = before ++ after ∧ EndsAfter "K\x7bt=0" before ∧
      parse "K\x7bt=0" = .error (.lowerLimit 2 "t" 0 1e-24) ∧
      Cropped 5 before after (parse "K\x7bt=0") := by
  have hparse : parse "K\x7bt=0/0\x7d" =
      .ok ((parse "K\x7bt=0/0\x7d").toOption.getD (circuit [])) :=
    Circuit.parse_eq_ok_getD (by decide +kernel) _
  have htext : "K\x7bt=0/0\x7d" = "K\x7bt=0" ++ "/0\x7d" := by decide
  have htokens := (List.take_append_drop 5 (tokenize "K\x7bt=0/0\x7d").tokens).symm
  have hends : EndsAfter "K\x7bt=0" ((tokenize "K\x7bt=0/0\x7d").tokens.take 5) := by
    unfold EndsAfter
    decide +kernel
  exact ⟨_, _, _, hparse, htokens, hends, by decide +kernel,
    cropped_parse hparse htext htokens hends⟩

end CircuitCode
