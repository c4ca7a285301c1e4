import CircuitCode.Proofs.Circuit.Identifiers
import CircuitCode.Proofs.Element.Equality

/-!
# Numbered elements

A circuit that is parsed, or put around elements that have no numbers, numbers its elements: those
of each kind from one on, from left to right (`Numbered`). Numbered elements are equal as soon as
they are equal without their numbers (`forall₂_beq_of_numbered`), and so are circuits of them
(`Circuit.beq_of_numbered`). What a circuit does with any elements, numbered or not, is
`Circuit.identifiers_ofConnection`.
-/

namespace CircuitCode

/-- Every element has the identifier that follows those of its kind to the left of it. -/
def Numbered (elements : List Element) : Prop :=
  ∀ (i : Nat) (e : Element), elements[i]? = some e →
    e.identifier = identifierOf (((elements.take i).map Element.kind).count e.kind + 1)

theorem highestIdentifier_eq_zero {elements : List Element}
    (h : ∀ e ∈ elements, e.identifier = none) (kind : ElementKind) :
    highestIdentifier elements kind = 0 := by
  apply Nat.le_zero.mp
  apply highestIdentifier_le_iff.mpr
  intro n hn
  obtain ⟨e, he, -, hidentifier⟩ := mem_identifiersOf.mp hn
  rw [h e he] at hidentifier
  cases hidentifier

theorem unnumbered_eq_count {elements : List Element}
    (h : ∀ e ∈ elements, e.identifier = none) (kind : ElementKind) :
    unnumbered kind elements = (elements.map Element.kind).count kind := by
  rw [unnumbered, List.count, List.countP_map]
  apply List.countP_congr
  intro e he
  simp [h e he]

theorem Numbered.of_append_singleton {elements : List Element} {e : Element}
    (h : Numbered (elements ++ [e])) :
    Numbered elements ∧
      e.identifier = identifierOf ((elements.map Element.kind).count e.kind + 1) := by
  constructor
  · intro i d hd
    obtain ⟨hi, -⟩ := List.getElem?_eq_some_iff.mp hd
    have hidentifier := h i d (by rw [List.getElem?_append_left hi, hd])
    rwa [List.take_append_of_le_length (Nat.le_of_lt hi)] at hidentifier
  · have hidentifier := h elements.length e (by simp)
    rwa [List.take_left] at hidentifier

theorem identifiersOf_append_singleton (kind : ElementKind) (elements : List Element)
    (e : Element) :
    identifiersOf kind (elements ++ [e]) =
      identifiersOf kind elements ++ if e.kind = kind then e.identifier.toList else [] := by
  unfold identifiersOf
  rw [List.filter_append, List.filterMap_append]
  by_cases hkind : e.kind = kind
  · cases hidentifier : e.identifier with
    | none => simp [hkind, hidentifier]
    | some n => simp [hkind, hidentifier]
  · simp [hkind]

/-- The identifiers of each kind are the numbers from one on, as far as identifiers go. -/
theorem Numbered.identifiersOf_eq {elements : List Element} (h : Numbered elements)
    (kind : ElementKind) :
    identifiersOf kind elements =
      List.range' 1 (min ((elements.map Element.kind).count kind) maxIdentifier) := by
  induction elements using List.reverseRecOn with
  | nil => rfl
  | append_singleton elements e ih =>
    obtain ⟨hothers, hidentifier⟩ := h.of_append_singleton
    rw [identifiersOf_append_singleton, ih hothers, List.map_append, List.map_singleton,
      List.count_append]
    by_cases hkind : e.kind = kind
    · subst hkind
      rw [if_pos rfl, List.count_singleton_self, hidentifier, identifierOf]
      by_cases hleft : (elements.map Element.kind).count e.kind + 1 ≤ maxIdentifier
      · rw [if_pos hleft, Nat.min_eq_left hleft, Nat.min_eq_left (Nat.le_of_succ_le hleft),
          List.range'_1_concat, Nat.add_comm 1]
        rfl
      · rw [if_neg hleft, Nat.min_eq_right (by omega), Nat.min_eq_right (by omega)]
        exact List.append_nil _
    · have hcount : [e.kind].count kind = 0 := by simp [hkind]
      rw [if_neg hkind, hcount, List.append_nil, Nat.add_zero]

theorem count_take_lt {elements : List Element} {i j : Nat} (hij : i < j) {e : Element}
    (he : elements[i]? = some e) :
    ((elements.take i).map Element.kind).count e.kind <
      ((elements.take j).map Element.kind).count e.kind := by
  rw [List.count, List.countP_map, List.countP_map]
  exact countP_take_lt hij he (by simp)

/-- Where there are identifiers for all elements, each element has one. -/
theorem Numbered.identifier_eq_some {elements : List Element} (h : Numbered elements)
    (hcount : ∀ kind, (elements.map Element.kind).count kind ≤ maxIdentifier) {i : Nat}
    {e : Element} (he : elements[i]? = some e) :
    e.identifier = some (((elements.take i).map Element.kind).count e.kind + 1) := by
  obtain ⟨hi, -⟩ := List.getElem?_eq_some_iff.mp he
  have hlt := count_take_lt hi he
  rw [List.take_length] at hlt
  rw [h i e he, identifierOf, if_pos (Nat.le_trans hlt (hcount e.kind))]

namespace Circuit

theorem map_kind_elements_ofConnection (c : Connection Element) :
    (ofConnection c).elements.map Element.kind = c.leaves.map Element.kind := by
  have hkinds := congrArg (List.map Element.kind) (elements_ofConnection c)
  rw [List.map_map, List.map_map] at hkinds
  exact hkinds

theorem numbered_ofConnection {c : Connection Element} (h : ∀ e ∈ c.leaves, e.identifier = none) :
    Numbered (ofConnection c).elements := by
  intro i d hd
  obtain ⟨e, he, rfl⟩ := getElem?_elements_ofConnection hd
  have hnone : e.identifier = none := h e (List.mem_of_getElem? he)
  have hcount : unnumbered e.kind (c.leaves.take i) =
      (((ofConnection c).elements.take i).map Element.kind).count e.kind := by
    rw [unnumbered_eq_count fun e he => h e (List.mem_of_mem_take he), List.map_take,
      List.map_take, map_kind_elements_ofConnection]
  rw [Element.identifier_withIdentifier, hnone, Option.none_or, highestIdentifier_eq_zero h,
    Nat.zero_add, hcount]
  rfl

/-- The elements of a parsed circuit are numbered. -/
theorem numbered_of_parse {text : String} {c : Circuit} (h : CircuitCode.parse text = .ok c) :
    Numbered c.elements := by
  obtain ⟨-, nodes, -, -, -, rfl⟩ := parse_eq_ok_iff.mp h
  rw [Grammar.circuit_eq]
  apply numbered_ofConnection
  intro e he
  have hmem : e ∈ (Node.branch .series (Grammar.rootChildren nodes)).leaves := he
  rw [Grammar.leaves_root] at hmem
  obtain ⟨x, -, rfl⟩ := List.mem_map.mp hmem
  rfl

/-- How a circuit numbers its elements. The k-th element of a kind that has no identifier gets the
    k-th after the highest of that kind, as long as there are identifiers; nothing else changes,
    but a parallel connection gets a series around it. So no element gets an identifier that
    another of its kind has, and a second pass changes nothing. The identifiers of each kind in a
    parsed circuit are the numbers from one on. -/
theorem identifiers_ofConnection :
    (∀ c : Connection Element,
      ((ofConnection c).elements = c.leaves.mapIdx fun i e => e.withIdentifier
        (identifierOf ((identifiersOf e.kind c.leaves).max?.getD 0 +
          (unnumbered e.kind (c.leaves.take i) + 1)))) ∧
      (c.kind = .series → (ofConnection c).root.toNode.shape = c.toNode.shape) ∧
      (c.kind = .parallel →
        (ofConnection c).root.toNode.shape = .branch .series [c.toNode.shape]) ∧
      FreshIdentifiers c.leaves (ofConnection c).elements ∧
      ofConnection (ofConnection c).root = ofConnection c) ∧
    ∀ (text : String) (c : Circuit), CircuitCode.parse text = .ok c → ∀ kind,
      identifiersOf kind c.elements =
        List.range' 1 (min ((c.elements.map Element.kind).count kind) maxIdentifier) := by
  constructor
  · intro c
    refine ⟨?_, ?_, ?_, freshIdentifiers_ofConnection c, ofConnection_root c⟩
    · simp only [elements_ofConnection_eq, highestIdentifier_eq_max]
    · intro hkind
      rw [shape_root_ofConnection, asSeries_of_series hkind]
    · intro hkind
      rw [shape_root_ofConnection, asSeries, hkind]
      exact Node.shape_branch _ _
  · intro text c hparse kind
    exact (numbered_of_parse hparse).identifiersOf_eq kind

/-- Three resistors, of which one has the last identifier but one, and a capacitor. -/
def crowdedConnection : Connection Element :=
  ⟨.parallel, [.leaf (.ofKind .resistor),
    .branch .series [.leaf { Element.ofKind .resistor with identifier := some (maxIdentifier - 1) },
      .leaf (.ofKind .capacitor)],
    .leaf (.ofKind .resistor)]⟩

/-- The last identifier goes to the first resistor, and the third one gets none. -/
theorem identifiers_ofConnection_crowdedConnection :
    (ofConnection crowdedConnection).elements.map (fun e => (e.kind, e.identifier)) =
        [(.resistor, some maxIdentifier), (.resistor, some (maxIdentifier - 1)),
          (.capacitor, some 1), (.resistor, none)] ∧
      (ofConnection crowdedConnection).root.toNode.shape =
        .branch .series [crowdedConnection.toNode.shape] ∧
      FreshIdentifiers crowdedConnection.leaves (ofConnection crowdedConnection).elements ∧
      ofConnection (ofConnection crowdedConnection).root = ofConnection crowdedConnection ∧
      ∃ c, CircuitCode.parse "R(RC)" = .ok c ∧ identifiersOf .resistor c.elements = [1, 2] := by
  obtain ⟨hconnection, hparsed⟩ := identifiers_ofConnection
  obtain ⟨helements, -, hparallel, hfresh, hagain⟩ := hconnection crowdedConnection
  have hparse : CircuitCode.parse "R(RC)" =
      .ok ((CircuitCode.parse "R(RC)").toOption.getD ⟨⟨.series, []⟩⟩) := by
    refine parse_eq_ok_getD ?_ _
    decide +kernel
  refine ⟨?_, hparallel rfl, hfresh, hagain, _, hparse, ?_⟩
  · rw [helements]
    decide +kernel
  · rw [hparsed _ _ hparse]
    decide +kernel

end Circuit

end CircuitCode
