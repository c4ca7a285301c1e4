import CircuitCode.Proofs.Element.Reread

/-!
# Which elements keep their text

The text of an element that was read back is the text it was read from exactly if the numbers in it
keep theirs (`Element.text_reread_eq_iff`). No text of an element is the start of another one.
-/

namespace CircuitCode

open Grammar

namespace Number

/-- A number whose text is read as a number with the same text. -/
def RoundTrips (decimals : Nat) (x : Number) : Prop :=
  ∃ y, ofLiteral? (x.code decimals) = some y ∧ y.code decimals = x.code decimals

theorem roundTrips_iff {decimals : Nat} {x : Number} (hx : x.isNaN = false) :
    x.RoundTrips decimals ↔ (x.reread decimals).code decimals = x.code decimals := by
  rw [RoundTrips, ofLiteral?_code hx]
  constructor
  · rintro ⟨y, hy, hcode⟩
    rw [Option.some.inj hy]
    exact hcode
  · intro hcode
    exact ⟨_, rfl, hcode⟩

/-- A zero is read back as a zero. -/
theorem rank_reread_of_rank_eq_zero {x : Number} (hx : x.rank = 0) (decimals : Nat) :
    (x.reread decimals).rank = 0 := by
  cases x with
  | nan negative => rfl
  | infinite negative => exact hx
  | finite negative units h =>
    obtain rfl : units = 0 := by
      cases negative <;> simp only [rank, Bool.false_eq_true, ↓reduceIte] at hx <;> omega
    rw [rank_reread_finite, rereadRank_zero]
    cases negative <;> rfl

/-- With sixteen decimals or more every number keeps its text. -/
theorem roundTrips_of_sixteen_le {x : Number} (hx : x.isNaN = false) {decimals : Nat}
    (hdecimals : 16 ≤ decimals) : x.RoundTrips decimals := by
  rw [roundTrips_iff hx]
  by_cases hrank : x.rank = 0
  · have hreread := rank_reread_of_rank_eq_zero hrank decimals
    have hnan : (x.reread decimals).isNaN = false := by rwa [isNaN_reread]
    unfold code
    dsimp only
    rw [if_pos ⟨hreread, hnan⟩, if_pos ⟨hrank, hx⟩]
  · rw [reread_eq_self hrank hdecimals]

/-- The characters of numbers. -/
def isNumeralChar (c : Char) : Bool := c.isAlphanum || c == '.' || c == '+' || c == '-'

theorem isNumeralChar_of_isDigit {c : Char} (h : c.isDigit = true) : isNumeralChar c = true := by
  simp [isNumeralChar, Char.isAlphanum, h]

theorem isNumeralChar_significand {digits : List Char}
    (hdigits : ∀ c ∈ digits, c.isDigit = true) :
    ∀ c ∈ Digits.significand digits, isNumeralChar c = true := by
  intro c hc
  unfold Digits.significand at hc
  split at hc
  · cases hc
  · exact isNumeralChar_of_isDigit (hdigits c hc)
  · rcases List.mem_cons.mp hc with rfl | hc
    · exact isNumeralChar_of_isDigit (hdigits _ List.mem_cons_self)
    · rcases List.mem_cons.mp hc with rfl | hc
      · rfl
      · exact isNumeralChar_of_isDigit (hdigits c (List.mem_cons_of_mem _ hc))

theorem isNumeralChar_write (exponent : Int) :
    ∀ c ∈ codeExponentStyle.write exponent, isNumeralChar c = true := by
  intro c hc
  rcases List.mem_cons.mp hc with rfl | hc
  · rfl
  · rcases List.mem_append.mp hc with hc | hc
    · split at hc
      · obtain rfl := List.mem_singleton.mp hc
        rfl
      · obtain rfl := List.mem_singleton.mp hc
        rfl
    · exact isNumeralChar_of_isDigit (Digits.isDigit_padded c hc)

theorem isNumeralChar_code (decimals : Nat) (x : Number) :
    ∀ c ∈ (x.code decimals).toList, isNumeralChar c = true := by
  cases x with
  | nan negative =>
    have htext : (nan negative).code decimals = "NaN" := by simp [code, isNaN, write]
    rw [htext]
    exact List.all_eq_true.mp rfl
  | infinite negative =>
    rw [code_infinite]
    cases negative <;> exact List.all_eq_true.mp rfl
  | finite negative units h =>
    rw [code_finite, String.toList_ofList, List.forall_mem_append]
    constructor
    · cases negative && units != 0 <;> simp [isNumeralChar]
    · rw [Digits.scientific, List.forall_mem_append]
      exact ⟨isNumeralChar_significand (Digits.wellFormed_rounded units decimals).isDigit,
        isNumeralChar_write _⟩

theorem code_ne_empty (decimals : Nat) {x : Number} (hx : x.isNaN = false) :
    x.code decimals ≠ "" := by
  intro hempty
  have hread := ofLiteral?_code hx decimals
  rw [hempty] at hread
  cases hread

theorem ne_slash_of_mem_code {decimals : Nat} {x : Number} :
    ∀ c ∈ (x.code decimals).toList, (c != '/') = true := by
  intro c hc
  have hchar := isNumeralChar_code decimals x c hc
  rw [bne_iff_ne]
  rintro rfl
  cases hchar

end Number

theorem eq_of_ite_lower {lower lower' default : String} (hne : lower ≠ "") (hne' : lower' ≠ "")
    (h : (if lower = default then "" else lower) = if lower' = default then "" else lower') :
    lower = lower' := by
  split at h
  · next hsame =>
    split at h
    · next hsame' => rw [hsame, hsame']
    · exact absurd h.symm hne'
  · split at h
    · exact absurd h hne
    · exact h

theorem eq_of_ite_upper {upper upper' default : String}
    (h : (if upper = default then "" else "/" ++ upper) =
      if upper' = default then "" else "/" ++ upper') : upper = upper' := by
  have hslash (text : String) : "/" ++ text ≠ "" := by simp
  split at h
  · next hsame =>
    split at h
    · next hsame' => rw [hsame, hsame']
    · exact absurd h.symm (hslash _)
  · split at h
    · exact absurd h (hslash _)
    · exact (String.append_right_inj "/").mp h

/-- The limits in a text determine the texts of the limits. -/
theorem limitsText_inj {lower lower' upper upper' defaultLower defaultUpper : String}
    (hlower : ∀ c ∈ lower.toList, (c != '/') = true)
    (hlower' : ∀ c ∈ lower'.toList, (c != '/') = true)
    (hne : lower ≠ "") (hne' : lower' ≠ "")
    (h : limitsText lower defaultLower upper defaultUpper =
      limitsText lower' defaultLower upper' defaultUpper) :
    lower = lower' ∧ upper = upper' := by
  have hslash (first second : String) : ("/" ++ first ++ second).toList ≠ [] := by
    simp [String.toList_append]
  unfold limitsText at h
  by_cases hsame : lower = defaultLower ∧ upper = defaultUpper
  · rw [if_pos hsame] at h
    by_cases hsame' : lower' = defaultLower ∧ upper' = defaultUpper
    · exact ⟨hsame.1.trans hsame'.1.symm, hsame.2.trans hsame'.2.symm⟩
    · rw [if_neg hsame'] at h
      exact absurd (congrArg String.toList h).symm (hslash _ _)
  · rw [if_neg hsame] at h
    by_cases hsame' : lower' = defaultLower ∧ upper' = defaultUpper
    · rw [if_pos hsame'] at h
      exact absurd (congrArg String.toList h) (hslash _ _)
    · rw [if_neg hsame'] at h
      have hlist := congrArg String.toList h
      simp only [String.toList_append, List.append_assoc, List.append_cancel_left_eq] at hlist
      have hplain {text default : String} (htext : ∀ c ∈ text.toList, (c != '/') = true) :
          ∀ c ∈ (if text = default then "" else text).toList, (c != '/') = true := by
        split
        · simp
        · exact htext
      have hhead (text default : String) :
          (if text = default then "" else "/" ++ text).toList.head?.any (fun c => c != '/') =
            false := by
        split
        · rfl
        · rw [String.toList_append]
          rfl
      obtain ⟨hfirst, hsecond⟩ := append_inj_of_head? (hplain hlower) (hplain hlower')
        (hhead _ _) (hhead _ _) hlist
      exact ⟨eq_of_ite_lower hne hne' (String.toList_inj.mp hfirst),
        eq_of_ite_upper (String.toList_inj.mp hsecond)⟩

namespace Parameter

variable {p : Parameter} {definition : ParameterDefinition} {decimals : Nat}

theorem code_lower_reread_iff (hp : p.Ordered) :
    (p.reread decimals definition).lower.code decimals = p.lower.code decimals ↔
      (p.lower.code decimals ≠ definition.lower.code decimals → p.lower.RoundTrips decimals) := by
  unfold reread
  dsimp only
  split
  · next hsame => simp [hsame]
  · next hother => simp [hother, Number.roundTrips_iff hp.1.1]

theorem code_upper_reread_iff (hp : p.Ordered) :
    (p.reread decimals definition).upper.code decimals = p.upper.code decimals ↔
      (p.upper.code decimals ≠ definition.upper.code decimals → p.upper.RoundTrips decimals) := by
  unfold reread
  dsimp only
  split
  · next hsame => simp [hsame]
  · next hother => simp [hother, Number.roundTrips_iff hp.2.2.1]

theorem forall_numbers_printed {motive : Number → Prop} :
    (∀ x ∈ (p.printed decimals definition).numbers, motive x) ↔
      motive p.value ∧
        (p.lower.code decimals ≠ definition.lower.code decimals → motive p.lower) ∧
          (p.upper.code decimals ≠ definition.upper.code decimals → motive p.upper) := by
  simp only [Element.mem_numbers_printed]
  constructor
  · intro h
    exact ⟨h _ (Or.inl rfl), fun hlower => h _ (Or.inr (Or.inl ⟨hlower, rfl⟩)),
      fun hupper => h _ (Or.inr (Or.inr ⟨hupper, rfl⟩))⟩
  · rintro ⟨hvalue, hlower, hupper⟩ x (rfl | ⟨hwritten, rfl⟩ | ⟨hwritten, rfl⟩)
    · exact hvalue
    · exact hlower hwritten
    · exact hupper hwritten

/-- The texts of a parameter and of another one of the same name and flag are equal exactly if
    those of the value and of both limits are. -/
theorem text_eq_text_iff {p' : Parameter} (hname : p'.name = p.name) (hfixed : p'.fixed = p.fixed)
    (hp : p.Ordered) (hp' : p'.Ordered) :
    p'.text definition decimals = p.text definition decimals ↔
      p'.value.code decimals = p.value.code decimals ∧
        p'.lower.code decimals = p.lower.code decimals ∧
          p'.upper.code decimals = p.upper.code decimals := by
  have hhead (lower defaultLower upper defaultUpper : String) :
      (limitsText lower defaultLower upper defaultUpper).toList.head?.any (fun c => c != '/') =
        false := by
    unfold limitsText
    split
    · rfl
    · rw [String.toList_append, String.toList_append]
      rfl
  have hassoc (value limits : String) :
      p.name ++ "=" ++ value ++ limits = p.name ++ "=" ++ (value ++ limits) := String.append_assoc
  unfold text
  rw [hname, hfixed, String.append_left_inj, hassoc, hassoc, String.append_right_inj]
  constructor
  · intro h
    have hlist := congrArg String.toList h
    rw [String.toList_append, String.toList_append] at hlist
    obtain ⟨hvalue, hlimits⟩ := append_inj_of_head? Number.ne_slash_of_mem_code
      Number.ne_slash_of_mem_code (hhead _ _ _ _) (hhead _ _ _ _) hlist
    exact ⟨String.toList_inj.mp hvalue, limitsText_inj Number.ne_slash_of_mem_code
      Number.ne_slash_of_mem_code (Number.code_ne_empty decimals hp'.1.1)
      (Number.code_ne_empty decimals hp.1.1) (String.toList_inj.mp hlimits)⟩
  · rintro ⟨hvalue, hlower, hupper⟩
    rw [hvalue, hlower, hupper]

/-- A parameter keeps its text when it is read back exactly if the numbers in it do. -/
theorem text_reread_eq_iff (hp : p.Ordered) (hp' : (p.reread decimals definition).Ordered)
    (hname : p.name = definition.name) :
    (p.reread decimals definition).text definition decimals = p.text definition decimals ↔
      ∀ x ∈ (p.printed decimals definition).numbers, x.RoundTrips decimals := by
  have hname' : (p.reread decimals definition).name = p.name := hname.symm
  rw [text_eq_text_iff hname' rfl hp hp', code_lower_reread_iff hp, code_upper_reread_iff hp,
    forall_numbers_printed, Number.roundTrips_iff hp.2.1]
  rfl

end Parameter

/-- The characters of definitions: neither commas nor closing braces. -/
def isDefinitionChar (c : Char) : Bool := c != ',' && c != '\x7d'

theorem isDefinitionChar_code {decimals : Nat} {x : Number} :
    ∀ c ∈ (x.code decimals).toList, isDefinitionChar c = true := by
  intro c hc
  have hchar := Number.isNumeralChar_code decimals x c hc
  rw [isDefinitionChar, Bool.and_eq_true, bne_iff_ne, bne_iff_ne]
  constructor <;> (rintro rfl; cases hchar)

theorem isDefinitionChar_limitsText {lower defaultLower upper defaultUpper : String}
    (hlower : ∀ c ∈ lower.toList, isDefinitionChar c = true)
    (hupper : ∀ c ∈ upper.toList, isDefinitionChar c = true) :
    ∀ c ∈ (limitsText lower defaultLower upper defaultUpper).toList,
      isDefinitionChar c = true := by
  have hslash : ∀ c ∈ "/".toList, isDefinitionChar c = true := List.all_eq_true.mp rfl
  unfold limitsText
  split
  · simp
  · rw [String.toList_append, String.toList_append, List.forall_mem_append, List.forall_mem_append]
    refine ⟨⟨hslash, ?_⟩, ?_⟩
    · split
      · simp
      · exact hlower
    · split
      · simp
      · rw [String.toList_append, List.forall_mem_append]
        exact ⟨hslash, hupper⟩

theorem Parameter.isDefinitionChar_text {p : Parameter} {definition : ParameterDefinition}
    {decimals : Nat} (hname : ∀ c ∈ p.name.toList, isDefinitionChar c = true) :
    ∀ c ∈ (p.text definition decimals).toList, isDefinitionChar c = true := by
  unfold text
  simp only [String.toList_append, List.forall_mem_append]
  refine ⟨⟨⟨⟨hname, List.all_eq_true.mp rfl⟩, isDefinitionChar_code⟩,
    isDefinitionChar_limitsText isDefinitionChar_code isDefinitionChar_code⟩, ?_⟩
  cases p.fixed <;> exact List.all_eq_true.mp rfl

namespace Element

variable {e : Element} {decimals : Nat}

theorem isDefinitionChar_name (kind : ElementKind) :
    ∀ d ∈ kind.parameters, ∀ c ∈ d.name.toList, isDefinitionChar c = true := by
  have hall : (kind.parameters.all fun d => d.name.toList.all isDefinitionChar) = true := by
    cases kind <;> rfl
  intro d hd
  exact List.all_eq_true.mp (List.all_eq_true.mp hall d hd)

theorem WellFormed.isDefinitionChar_texts (he : e.WellFormed) :
    ∀ text ∈ e.definitionTexts decimals, ∀ c ∈ text.toList, isDefinitionChar c = true := by
  rw [definitionTexts_eq]
  refine List.forall_mem_map.mpr fun entry hentry => ?_
  refine Parameter.isDefinitionChar_text ?_
  rw [he.name_entry entry hentry]
  exact isDefinitionChar_name e.kind entry.2 (definition_entry hentry)

theorem entries_reread (he : e.WellFormed) (decimals : Nat) :
    (e.reread decimals).entries =
      e.entries.map fun entry => (entry.1.reread decimals entry.2, entry.2) := by
  have hkind := he.map_snd_entries
  rw [entries, reread]
  dsimp only
  rw [← hkind]
  exact List.zip_map'

theorem WellFormed.reread (he : e.WellFormed) (decimals : Nat) :
    (e.reread decimals).WellFormed := by
  refine ⟨?_, ?_, he.label⟩
  · change (e.entries.map fun entry => entry.1.reread decimals entry.2).map Parameter.name =
      e.kind.parameters.map ParameterDefinition.name
    rw [← he.map_snd_entries, List.map_map, List.map_map]
    rfl
  · refine List.forall_mem_map.mpr fun entry hentry => ?_
    exact (he.ordered_entry hentry).reread (definition_entry hentry) decimals

theorem forall_mem_intercalate {p : Char → Prop} {separator : String} {texts : List String}
    (hseparator : ∀ c ∈ separator.toList, p c) (h : ∀ text ∈ texts, ∀ c ∈ text.toList, p c) :
    ∀ c ∈ (separator.intercalate texts).toList, p c := by
  induction texts with
  | nil => simp
  | cons text texts ih =>
    obtain ⟨htext, htexts⟩ := List.forall_mem_cons.mp h
    cases texts with
    | nil => simpa using htext
    | cons next texts =>
      rw [String.intercalate_cons_cons]
      simp only [String.toList_append, List.forall_mem_append]
      exact ⟨⟨htext, hseparator⟩, ih htexts⟩

/-- Nothing but the end of the text of an element is a closing brace. -/
theorem WellFormed.text_eq_append_brace (he : e.WellFormed) (decimals : Nat) :
    ∃ front, (e.text (some decimals)).toList = front ++ ['\x7d'] ∧
      ∀ c ∈ front, (c != '\x7d') = true := by
  obtain ⟨label, htext, hlabel⟩ : ∃ label : String,
      e.text (some decimals) = e.symbol ++ "\x7b" ++
        String.intercalate "," (e.definitionTexts decimals) ++ label ++ "\x7d" ∧
      ∀ c ∈ label.toList, (c != '\x7d') = true := by
    cases hlabel : e.label with
    | none => exact ⟨"", by simp [text, blockText, hlabel, String.append_assoc], by simp⟩
    | some label =>
      have hplain := (he.label label hlabel).2
      simp only [isLabel, Bool.and_eq_true, Bool.not_eq_true', List.any_eq_false,
        Bool.or_eq_true, beq_iff_eq, not_or] at hplain
      refine ⟨":" ++ label, by simp [text, blockText, hlabel, String.append_assoc], ?_⟩
      simp only [String.toList_append, List.forall_mem_append]
      exact ⟨List.all_eq_true.mp rfl, fun c hc => by simpa using (hplain.1 c hc).2⟩
  refine ⟨(e.symbol ++ "\x7b" ++ String.intercalate "," (e.definitionTexts decimals) ++
    label).toList, ?_, ?_⟩
  · rw [htext, String.toList_append]
    rfl
  · simp only [String.toList_append, List.forall_mem_append]
    have hbrace : ∀ c ∈ "\x7b".toList, (c != '\x7d') = true := List.all_eq_true.mp rfl
    have hcomma : ∀ c ∈ ",".toList, (c != '\x7d') = true := List.all_eq_true.mp rfl
    refine ⟨⟨⟨?_, hbrace⟩, forall_mem_intercalate hcomma fun text htext c hc => ?_⟩, hlabel⟩
    · cases hkind : e.kind <;> rw [symbol, hkind] <;> exact List.all_eq_true.mp rfl
    · have hchar := he.isDefinitionChar_texts text htext c hc
      rw [isDefinitionChar, Bool.and_eq_true] at hchar
      exact hchar.2

/-- The text of an element is known where it stands, whatever follows. -/
theorem text_eq_of_append_eq {e' : Element} (he : e.WellFormed) (he' : e'.WellFormed)
    {rest rest' : List Char}
    (h : (e.text (some decimals)).toList ++ rest = (e'.text (some decimals)).toList ++ rest') :
    e.text (some decimals) = e'.text (some decimals) ∧ rest = rest' := by
  obtain ⟨front, htext, hfront⟩ := he.text_eq_append_brace decimals
  obtain ⟨front', htext', hfront'⟩ := he'.text_eq_append_brace decimals
  rw [htext, htext', List.append_assoc, List.append_assoc] at h
  obtain ⟨hsame, hrest⟩ := append_inj_of_head? hfront hfront' rfl rfl h
  refine ⟨String.toList_inj.mp ?_, List.append_cancel_left hrest⟩
  rw [htext, htext', hsame]

/-- A list of definitions is known from its text. -/
theorem definitionTexts_inj {texts texts' : List String} (hne : texts ≠ []) (hne' : texts' ≠ [])
    (hchar : ∀ text ∈ texts, ∀ c ∈ text.toList, isDefinitionChar c = true)
    (hchar' : ∀ text ∈ texts', ∀ c ∈ text.toList, isDefinitionChar c = true)
    (h : String.intercalate "," texts = String.intercalate "," texts') : texts = texts' := by
  have hcomma {ts : List String} (hts : ∀ text ∈ ts, ∀ c ∈ text.toList, isDefinitionChar c = true) :
      ∀ l ∈ ts.map String.toList, ',' ∉ l := by
    refine List.forall_mem_map.mpr fun text htext hmem => ?_
    cases hts text htext ',' hmem
  have hlists := congrArg (fun text => text.toList.splitOn ',') h
  simp only [String.toList_intercalate] at hlists
  have hseparator : ",".toList = [','] := rfl
  rw [hseparator, List.splitOn_intercalate ',' (hcomma hchar) (by simpa using hne),
    List.splitOn_intercalate ',' (hcomma hchar') (by simpa using hne')] at hlists
  exact List.map_injective_iff.mpr (fun _ _ => String.toList_inj.mp) hlists

/-- An element keeps its text when it is read back exactly if the numbers in it do. -/
theorem text_reread_eq_iff (he : e.WellFormed) :
    (e.reread decimals).text (some decimals) = e.text (some decimals) ↔
      ∀ d ∈ (e.printed decimals).definitions, ∀ x ∈ d.numbers, x.RoundTrips decimals := by
  have hentries : e.entries ≠ [] := fun hnil => he.definitions_ne_nil decimals (by
    rw [printed, hnil]
    rfl)
  have htexts : (e.reread decimals).definitionTexts decimals =
      e.entries.map fun entry => (entry.1.reread decimals entry.2).text entry.2 decimals := by
    rw [definitionTexts_eq, entries_reread he, List.map_map]
    rfl
  have hsame : (e.reread decimals).text (some decimals) = e.text (some decimals) ↔
      String.intercalate "," ((e.reread decimals).definitionTexts decimals) =
        String.intercalate "," (e.definitionTexts decimals) := by
    have hsymbol : (e.reread decimals).symbol = e.symbol := rfl
    have hlabel : (e.reread decimals).label = e.label := rfl
    unfold text blockText
    dsimp only
    rw [hsymbol, hlabel, String.append_right_inj, String.append_left_inj, String.append_left_inj,
      String.append_right_inj]
  rw [hsame]
  constructor
  · intro h
    have hlist := definitionTexts_inj (by rw [htexts]; simpa using hentries)
      (by rw [definitionTexts_eq]; simpa using hentries) (he.reread decimals).isDefinitionChar_texts
      he.isDefinitionChar_texts h
    rw [htexts, definitionTexts_eq] at hlist
    refine List.forall_mem_map.mpr fun entry hentry => ?_
    have hp := he.ordered_entry hentry
    exact (Parameter.text_reread_eq_iff hp (hp.reread (definition_entry hentry) decimals)
      (he.name_entry entry hentry)).mp (List.map_inj_left.mp hlist entry hentry)
  · intro h
    rw [htexts, definitionTexts_eq]
    congr 1
    refine List.map_congr_left fun entry hentry => ?_
    have hp := he.ordered_entry hentry
    exact (Parameter.text_reread_eq_iff hp (hp.reread (definition_entry hentry) decimals)
      (he.name_entry entry hentry)).mpr (h _ (List.mem_map_of_mem hentry))

end Element

end CircuitCode
