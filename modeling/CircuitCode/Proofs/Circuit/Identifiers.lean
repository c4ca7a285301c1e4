import CircuitCode.Proofs.Circuit.Built

/-!
# Identifiers

A circuit numbers its elements in one pass. After the highest identifier of each kind it counts
the elements that have none, from left to right, as far as identifiers go
(`Circuit.elements_ofConnection_eq`). What the pass remembers of the elements behind it is
`lastAfter`. The pass leaves a circuit that is numbered already as it is.
-/

namespace CircuitCode

/-- The identifier with the given number, if there is one. -/
def identifierOf (number : Nat) : Option Nat :=
  if number ≤ maxIdentifier then some number else none

theorem identifierOf_eq_some_iff {number n : Nat} :
    identifierOf number = some n ↔ number ≤ maxIdentifier ∧ number = n := by
  simp [identifierOf]

theorem identifierOf_eq_none_iff {number : Nat} :
    identifierOf number = none ↔ maxIdentifier < number := by
  simp [identifierOf]

/-- The identifiers of the elements of a kind, from left to right. -/
def identifiersOf (kind : ElementKind) (elements : List Element) : List Nat :=
  (elements.filter fun e => e.kind = kind).filterMap Element.identifier

/-- The number of elements of a kind that have no identifier. -/
def unnumbered (kind : ElementKind) (elements : List Element) : Nat :=
  elements.countP fun e => e.kind = kind && e.identifier.isNone

theorem mem_identifiersOf {kind : ElementKind} {elements : List Element} {n : Nat} :
    n ∈ identifiersOf kind elements ↔ ∃ e ∈ elements, e.kind = kind ∧ e.identifier = some n := by
  simp [identifiersOf, and_assoc]

theorem foldl_max_identifiersOf (kind : ElementKind) (elements : List Element) (n : Nat) :
    elements.foldl
        (fun highest e => if e.kind = kind then max highest (e.identifier.getD 0) else highest) n =
      (identifiersOf kind elements).foldl max n := by
  induction elements generalizing n with
  | nil => rfl
  | cons e elements ih =>
    rw [List.foldl_cons, ih]
    unfold identifiersOf
    by_cases hkind : e.kind = kind
    · cases hidentifier : e.identifier with
      | none => simp [hkind, hidentifier]
      | some identifier => simp [hkind, hidentifier]
    · simp [hkind]

/-- The highest identifier of a kind is the largest of its identifiers. -/
theorem highestIdentifier_eq_max (elements : List Element) (kind : ElementKind) :
    highestIdentifier elements kind = (identifiersOf kind elements).max?.getD 0 := by
  rw [highestIdentifier, foldl_max_identifiersOf, List.foldl_max, Nat.zero_max]

theorem highestIdentifier_le_iff {elements : List Element} {kind : ElementKind} {bound : Nat} :
    highestIdentifier elements kind ≤ bound ↔ ∀ n ∈ identifiersOf kind elements, n ≤ bound := by
  rw [highestIdentifier_eq_max]
  cases hmax : (identifiersOf kind elements).max? with
  | none => simp [List.max?_eq_none_iff.mp hmax]
  | some highest => exact List.max?_le_iff hmax

theorem le_highestIdentifier {elements : List Element} {e : Element} (he : e ∈ elements) {n : Nat}
    (hidentifier : e.identifier = some n) : n ≤ highestIdentifier elements e.kind :=
  highestIdentifier_le_iff.mp (Nat.le_refl _) n
    (mem_identifiersOf.mpr ⟨e, he, rfl, hidentifier⟩)

theorem unnumbered_append (kind : ElementKind) (elements others : List Element) :
    unnumbered kind (elements ++ others) =
      unnumbered kind elements + unnumbered kind others :=
  List.countP_append

theorem unnumbered_singleton (kind : ElementKind) (e : Element) :
    unnumbered kind [e] = if e.kind = kind ∧ e.identifier = none then 1 else 0 := by
  simp [unnumbered, List.countP_singleton]

/-- A member that is counted makes a difference between the parts up to it and beyond it. -/
theorem countP_take_lt {α : Type} {p : α → Bool} {as : List α} {i j : Nat} (hij : i < j) {a : α}
    (ha : as[i]? = some a) (hp : p a = true) : (as.take i).countP p < (as.take j).countP p := by
  have hprefix : (as.take (i + 1)).Sublist (as.take j) := List.take_sublist_take_left hij
  have hle : (as.take (i + 1)).countP p ≤ (as.take j).countP p := hprefix.countP_le
  rw [List.take_add_one, ha, List.countP_append] at hle
  have hone : [a].countP p = 1 := by simp [hp]
  change _ + [a].countP p ≤ _ at hle
  omega

/-- Where an element without an identifier stands, more of its kind have been counted after it
    than before it. -/
theorem unnumbered_take_lt {elements : List Element} {i j : Nat} (hij : i < j) {e : Element}
    (he : elements[i]? = some e) (hnone : e.identifier = none) :
    unnumbered e.kind (elements.take i) < unnumbered e.kind (elements.take j) :=
  countP_take_lt hij he (by simp [hnone])

/-- What the pass remembers after some elements: the last identifier of each kind. -/
def lastAfter (first : ElementKind → Nat) (elements : List Element) (kind : ElementKind) : Nat :=
  max (first kind) (min (first kind + unnumbered kind elements) maxIdentifier)

theorem lastAfter_nil (first : ElementKind → Nat) : lastAfter first [] = first := by
  funext kind
  show max (first kind) (min (first kind + 0) maxIdentifier) = first kind
  omega

/-- Past the highest identifier the count goes on, but no identifier is left. -/
theorem identifierOf_unnumbered (first : ElementKind → Nat) (elements : List Element)
    (kind : ElementKind) :
    identifierOf (first kind + unnumbered kind elements + 1) =
      if maxIdentifier ≤ lastAfter first elements kind then none
      else some (lastAfter first elements kind + 1) := by
  unfold identifierOf lastAfter
  by_cases hleft : first kind + unnumbered kind elements + 1 ≤ maxIdentifier
  · rw [if_pos hleft, if_neg (by omega)]
    congr 1
    omega
  · rw [if_neg hleft, if_pos (by omega)]

/-- Nothing changes for the elements after one that has an identifier or can get none. -/
theorem lastAfter_append_of_kept {first : ElementKind → Nat} {elements : List Element}
    {e : Element}
    (h : e.identifier ≠ none ∨ maxIdentifier ≤ lastAfter first elements e.kind) :
    lastAfter first (elements ++ [e]) = lastAfter first elements := by
  funext kind
  unfold lastAfter at h ⊢
  rw [unnumbered_append, unnumbered_singleton]
  by_cases hcounts : e.kind = kind ∧ e.identifier = none
  · obtain ⟨rfl, hnone⟩ := hcounts
    have hfull := h.resolve_left fun hsome => hsome hnone
    rw [if_pos ⟨rfl, hnone⟩]
    omega
  · rw [if_neg hcounts, Nat.add_zero]

theorem lastAfter_append_of_given {first : ElementKind → Nat} {elements : List Element}
    {e : Element} (hnone : e.identifier = none)
    (hleft : ¬maxIdentifier ≤ lastAfter first elements e.kind) :
    lastAfter first (elements ++ [e]) = fun kind =>
      if kind = e.kind then lastAfter first elements e.kind + 1
      else lastAfter first elements kind := by
  funext kind
  unfold lastAfter at hleft ⊢
  rw [unnumbered_append, unnumbered_singleton]
  by_cases hsame : kind = e.kind
  · subst hsame
    rw [if_pos rfl, if_pos ⟨rfl, hnone⟩]
    omega
  · rw [if_neg hsame, if_neg fun h => hsame h.1.symm, Nat.add_zero]

namespace Element

/-- The element with its own identifier, or else with the given one. -/
def withIdentifier (e : Element) (identifier : Option Nat) : Element :=
  { e with identifier := e.identifier.or identifier }

theorem identifier_withIdentifier (e : Element) (identifier : Option Nat) :
    (e.withIdentifier identifier).identifier = e.identifier.or identifier := rfl

theorem withIdentifier_of_eq_some {e : Element} {n : Nat} (h : e.identifier = some n)
    (identifier : Option Nat) : e.withIdentifier identifier = e := by
  cases e
  cases h
  rfl

theorem withIdentifier_none (e : Element) : e.withIdentifier none = e := by
  rw [withIdentifier, Option.or_none]

theorem number_of_identifier_eq_some {e : Element} {n : Nat} (h : e.identifier = some n)
    (last : ElementKind → Nat) : e.number last = (e, last) := by
  simp [number, h]

theorem number_of_identifier_eq_none {e : Element} (he : e.identifier = none)
    (last : ElementKind → Nat) :
    e.number last =
      if maxIdentifier ≤ last e.kind then (e, last)
      else ({ e with identifier := some (last e.kind + 1) },
        fun kind => if kind = e.kind then last e.kind + 1 else last kind) := by
  unfold number
  simp only [he, Option.isSome_none, Bool.false_or, decide_eq_true_eq, Nat.lt_add_one_iff]

/-- An element gets the identifier after the last one of its kind, if it needs one and there is
    one. -/
theorem number_lastAfter (first : ElementKind → Nat) (elements : List Element) (e : Element) :
    e.number (lastAfter first elements) =
      (e.withIdentifier (identifierOf (first e.kind + unnumbered e.kind elements + 1)),
        lastAfter first (elements ++ [e])) := by
  rw [identifierOf_unnumbered]
  cases hidentifier : e.identifier with
  | some n =>
    have hkept : lastAfter first (elements ++ [e]) = lastAfter first elements :=
      lastAfter_append_of_kept (.inl (by simp [hidentifier]))
    rw [number_of_identifier_eq_some hidentifier, withIdentifier_of_eq_some hidentifier, hkept]
  | none =>
    rw [number_of_identifier_eq_none hidentifier]
    by_cases hfull : maxIdentifier ≤ lastAfter first elements e.kind
    · rw [if_pos hfull, if_pos hfull, withIdentifier_none,
        lastAfter_append_of_kept (.inr hfull)]
    · rw [if_neg hfull, if_neg hfull, withIdentifier, hidentifier, Option.none_or,
        lastAfter_append_of_given hidentifier hfull]

end Element

/-- A whole pass, behind which some elements lie already: each element without an identifier gets
    the one that counts it among those of its kind. -/
theorem traverseList_number (first : ElementKind → Nat) (done elements : List Element) :
    traverseList Element.number elements (lastAfter first done) =
      (elements.mapIdx fun i e => e.withIdentifier
          (identifierOf (first e.kind + unnumbered e.kind (done ++ elements.take i) + 1)),
        lastAfter first (done ++ elements)) := by
  induction elements generalizing done with
  | nil => rw [List.append_nil]; rfl
  | cons e elements ih =>
    rw [traverseList, Element.number_lastAfter]
    simp only [ih, List.mapIdx_cons, List.take_zero, List.append_nil, List.take_succ_cons,
      List.append_assoc, List.singleton_append]

/-- The last identifier of a kind is the one before the pass or that of an element passed. -/
theorem Element.last_number (last : ElementKind → Nat) (e : Element) (kind : ElementKind) :
    (e.number last).2 kind = last kind ∨
      (e.number last).1.kind = kind ∧
        (e.number last).1.identifier = some ((e.number last).2 kind) := by
  cases hidentifier : e.identifier with
  | some n =>
    rw [number_of_identifier_eq_some hidentifier]
    exact .inl rfl
  | none =>
    rw [number_of_identifier_eq_none hidentifier]
    by_cases hfull : maxIdentifier ≤ last e.kind
    · rw [if_pos hfull]
      exact .inl rfl
    · rw [if_neg hfull]
      by_cases hkind : kind = e.kind
      · simp [hkind]
      · simp [hkind]

/-- So what a pass remembers is in use among the elements passed, unless it was there before. -/
theorem last_traverseList_number (elements : List Element) (last : ElementKind → Nat)
    (kind : ElementKind) :
    (traverseList Element.number elements last).2 kind = last kind ∨
      (traverseList Element.number elements last).2 kind ∈
        identifiersOf kind (traverseList Element.number elements last).1 := by
  induction elements generalizing last with
  | nil => exact .inl rfl
  | cons e elements ih =>
    rw [mem_identifiersOf]
    rcases ih (e.number last).2 with hsame | hmem
    · show (traverseList Element.number elements (e.number last).2).2 kind = _ ∨ _
      rcases e.last_number last kind with hlast | ⟨hkind, hidentifier⟩
      · exact .inl (hsame.trans hlast)
      · refine .inr ⟨(e.number last).1, List.mem_cons_self, hkind, ?_⟩
        rw [hidentifier]
        exact congrArg some hsame.symm
    · obtain ⟨e', he', hkind, hidentifier⟩ := mem_identifiersOf.mp hmem
      exact .inr ⟨e', List.mem_cons_of_mem _ he', hkind, hidentifier⟩

/-- Where every element has an identifier or can get none, the pass changes nothing. -/
theorem traverseList_number_eq_self {elements : List Element} {last : ElementKind → Nat}
    (h : ∀ e ∈ elements, e.identifier = none → maxIdentifier ≤ last e.kind) :
    traverseList Element.number elements last = (elements, last) := by
  induction elements with
  | nil => rfl
  | cons e elements ih =>
    obtain ⟨hfirst, hothers⟩ := List.forall_mem_cons.mp h
    have he : e.number last = (e, last) := by
      cases hidentifier : e.identifier with
      | some n => exact Element.number_of_identifier_eq_some hidentifier last
      | none =>
        rw [Element.number_of_identifier_eq_none hidentifier, if_pos (hfirst hidentifier)]
    simp only [traverseList, he, ih hothers]

/-- No element that had no identifier shares the one that it gets with another of its kind. -/
def FreshIdentifiers (before after : List Element) : Prop :=
  ∀ (i j : Nat) (e d d' : Element), i ≠ j → before[i]? = some e → e.identifier = none →
    after[i]? = some d → after[j]? = some d' → d.kind = d'.kind → d.identifier ≠ none →
    d.identifier ≠ d'.identifier

namespace Circuit

/-- The pass that numbers the elements of the circuit around a connection. -/
theorem traverseList_leaves (c : Connection Element) :
    traverseList Element.number c.leaves (highestIdentifier c.leaves) =
      ((ofConnection c).elements, lastAfter (highestIdentifier c.leaves) c.leaves) := by
  have hleaves := congrArg Prod.fst (Node.leaves_traverse Element.number (asSeries c).toNode
    (highestIdentifier (asSeries c).leaves))
  have hpass := traverseList_number (highestIdentifier c.leaves) [] c.leaves
  rw [lastAfter_nil] at hpass
  apply Prod.ext
  · rw [← leaves_asSeries]
    exact hleaves.symm
  · rw [hpass]
    rfl

/-- The elements of the circuit around a connection: the k-th of a kind that had no identifier has
    the k-th after the highest of that kind. -/
theorem elements_ofConnection_eq (c : Connection Element) :
    (ofConnection c).elements = c.leaves.mapIdx fun i e => e.withIdentifier
      (identifierOf (highestIdentifier c.leaves e.kind +
        (unnumbered e.kind (c.leaves.take i) + 1))) := by
  have hpass := traverseList_number (highestIdentifier c.leaves) [] c.leaves
  rw [lastAfter_nil, traverseList_leaves] at hpass
  simpa only [List.nil_append, Nat.add_assoc] using congrArg Prod.fst hpass

theorem getElem?_elements_ofConnection {c : Connection Element} {i : Nat} {d : Element}
    (hd : (ofConnection c).elements[i]? = some d) :
    ∃ e, c.leaves[i]? = some e ∧ d = e.withIdentifier
      (identifierOf (highestIdentifier c.leaves e.kind +
        (unnumbered e.kind (c.leaves.take i) + 1))) := by
  rw [elements_ofConnection_eq, List.getElem?_mapIdx, Option.map_eq_some_iff] at hd
  obtain ⟨e, he, rfl⟩ := hd
  exact ⟨e, he, rfl⟩

theorem freshIdentifiers_ofConnection (c : Connection Element) :
    FreshIdentifiers c.leaves (ofConnection c).elements := by
  intro i j e d d' hij he hnone hd hd' hkind hsome hclash
  obtain ⟨e₁, he₁, rfl⟩ := getElem?_elements_ofConnection hd
  obtain rfl : e = e₁ := Option.some.inj (he.symm.trans he₁)
  obtain ⟨e', he', rfl⟩ := getElem?_elements_ofConnection hd'
  change e.kind = e'.kind at hkind
  rw [Element.identifier_withIdentifier, hnone, Option.none_or] at hsome hclash
  obtain ⟨n, hn⟩ := Option.ne_none_iff_exists'.mp hsome
  obtain ⟨-, hnumber⟩ := identifierOf_eq_some_iff.mp hn
  rw [hn, Element.identifier_withIdentifier] at hclash
  cases hidentifier : e'.identifier with
  | some n' =>
    -- What was there before is not above the highest of its kind.
    have hle := le_highestIdentifier (List.mem_of_getElem? he') hidentifier
    rw [hidentifier, Option.some_or, Option.some.injEq] at hclash
    rw [← hkind] at hle
    omega
  | none =>
    -- Of two elements without an identifier the right one has a larger count.
    rw [hidentifier, Option.none_or, ← hkind] at hclash
    obtain ⟨-, hnumber'⟩ := identifierOf_eq_some_iff.mp hclash.symm
    rcases Nat.lt_or_gt_of_ne hij with hlt | hgt
    · have hcount := unnumbered_take_lt hlt he hnone
      omega
    · have hcount := unnumbered_take_lt hgt he' hidentifier
      rw [← hkind] at hcount
      omega

/-- An element that has an identifier stays as it is. -/
theorem mem_elements_ofConnection {c : Connection Element} {e : Element} (he : e ∈ c.leaves)
    {n : Nat} (hidentifier : e.identifier = some n) : e ∈ (ofConnection c).elements := by
  obtain ⟨i, hi⟩ := List.mem_iff_getElem?.mp he
  apply List.mem_of_getElem?
  rw [elements_ofConnection_eq, List.getElem?_mapIdx, hi, Option.map_some,
    Element.withIdentifier_of_eq_some hidentifier]

theorem highestIdentifier_le_ofConnection (c : Connection Element) (kind : ElementKind) :
    highestIdentifier c.leaves kind ≤ highestIdentifier (ofConnection c).elements kind := by
  apply highestIdentifier_le_iff.mpr
  intro n hn
  obtain ⟨e, he, rfl, hidentifier⟩ := mem_identifiersOf.mp hn
  exact le_highestIdentifier (mem_elements_ofConnection he hidentifier) hidentifier

/-- If an element stays without an identifier, the last one of its kind is in use. -/
theorem maxIdentifier_le_of_unnumbered {c : Connection Element} {d : Element}
    (hd : d ∈ (ofConnection c).elements) (hnone : d.identifier = none) :
    maxIdentifier ≤ highestIdentifier (ofConnection c).elements d.kind := by
  obtain ⟨i, hi⟩ := List.mem_iff_getElem?.mp hd
  obtain ⟨e, he, rfl⟩ := getElem?_elements_ofConnection hi
  have hlast := last_traverseList_number c.leaves (highestIdentifier c.leaves) e.kind
  rw [traverseList_leaves] at hlast
  have hfull : maxIdentifier ≤ lastAfter (highestIdentifier c.leaves) c.leaves e.kind := by
    rw [Element.identifier_withIdentifier, Option.or_eq_none_iff, identifierOf_eq_none_iff] at hnone
    have hcount : unnumbered e.kind (c.leaves.take i) ≤ unnumbered e.kind c.leaves :=
      (List.take_sublist i c.leaves).countP_le
    unfold lastAfter
    omega
  refine Nat.le_trans hfull ?_
  rcases hlast with hfirst | hmem
  · exact Nat.le_trans (Nat.le_of_eq hfirst) (highestIdentifier_le_ofConnection c e.kind)
  · exact highestIdentifier_le_iff.mp (Nat.le_refl _) _ hmem

theorem asSeries_of_series {c : Connection Element} (h : c.kind = .series) : asSeries c = c := by
  rw [asSeries, h]

theorem shape_root_ofConnection (c : Connection Element) :
    (ofConnection c).root.toNode.shape = (asSeries c).toNode.shape :=
  Node.shape_traverse Element.number (asSeries c).toNode _

/-- A circuit is determined by its shape and its elements. -/
theorem eq_of_shape_eq {c d : Circuit} (hshape : c.root.toNode.shape = d.root.toNode.shape)
    (helements : c.elements = d.elements) : c = d := by
  rcases c with ⟨⟨kind, children⟩⟩
  rcases d with ⟨⟨kind', children'⟩⟩
  have htree : Node.branch kind children = .branch kind' children' :=
    Node.eq_of_shape_eq hshape helements
  cases htree
  rfl

/-- A circuit is the circuit around its root. -/
theorem ofConnection_root (c : Connection Element) :
    ofConnection (ofConnection c).root = ofConnection c := by
  have hfull : ∀ d ∈ (ofConnection c).elements, d.identifier = none →
      maxIdentifier ≤ highestIdentifier (ofConnection c).elements d.kind :=
    fun d hd => maxIdentifier_le_of_unnumbered hd
  have hpass := traverseList_leaves (ofConnection c).root
  apply eq_of_shape_eq
  · rw [shape_root_ofConnection, asSeries_of_series (kind_root_ofConnection c)]
  · exact (congrArg Prod.fst hpass).symm.trans
      (congrArg Prod.fst (traverseList_number_eq_self hfull))

end Circuit

end CircuitCode
