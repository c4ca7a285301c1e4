import CircuitCode.Circuit.Basic
import CircuitCode.Proofs.Connection.Paths

/-!
# Looking up connections

A connection is looked up by its number in two ways, which give a copy of it and the path to it. The
number counts the same connections for both, those inside a connection in pre-order and, for a
circuit, its root before them (`Circuit.lookups_agree`).
-/

namespace CircuitCode

variable {α : Type}

/-- A lookup in a list of connections and a search for paths agree: under each number there is an
    entry of which the one gives the connection and the other the path, and under the same numbers
    there is none. -/
structure LookupsAgree (root : Connection α) (entries : List (Path × Connection α))
    (connections : List (Connection α)) (find? : Nat → Option (Connection α))
    (locate : Nat → Option Path) : Prop where
  connections_eq : connections = entries.map Prod.snd
  find?_eq : ∀ index, find? index = connections[index]?
  locate_eq : ∀ index, locate index = (entries[index]?).map Prod.fst
  at?_locate : ∀ index, (locate index).bind root.at? = find? index
  find?_eq_none_iff : ∀ index, find? index = none ↔ entries.length ≤ index
  locate_eq_none_iff : ∀ index, locate index = none ↔ entries.length ≤ index

theorem Connection.Lists.lookupsAgree {root : Connection α} {form : Path → Prop}
    {entries : List (Path × Connection α)} {connections : List (Connection α)}
    {find? : Nat → Option (Connection α)} {locate : Nat → Option Path}
    (h : root.Lists form entries) (hconnections : connections = entries.map Prod.snd)
    (hfind : ∀ index, find? index = connections[index]?)
    (hlocate : ∀ index, locate index = (entries[index]?).map Prod.fst) :
    LookupsAgree root entries connections find? locate where
  connections_eq := hconnections
  find?_eq := hfind
  locate_eq := hlocate
  at?_locate index := by
    rw [hfind, hlocate, hconnections, List.getElem?_map]
    cases hentry : entries[index]? with
    | none => rfl
    | some entry => exact ((h.mem_iff entry.1 entry.2).mp (List.mem_of_getElem? hentry)).2
  find?_eq_none_iff index := by
    rw [hfind, hconnections, List.getElem?_eq_none_iff, List.length_map]
  locate_eq_none_iff index := by
    rw [hlocate, Option.map_eq_none_iff, List.getElem?_eq_none_iff]

namespace Circuit

theorem connections_eq (c : Circuit) :
    c.connections = (c.root.toNode.listed Node.connection?).map Prod.snd := by
  rw [connections, Connection.nested_eq, Connection.listed_toNode, List.map_cons]

theorem connection?_eq (c : Circuit) (index : Nat) : c.connection? index = c.connections[index]? := by
  cases index <;> rfl

theorem locate_eq (c : Circuit) (index : Nat) :
    c.locate index = ((c.root.toNode.listed Node.connection?)[index]?).map Prod.fst := by
  cases index with
  | zero => rfl
  | succ index => exact c.root.locate_eq index

/-- Under each number both ways to look up a connection of a circuit lead to the same one. -/
theorem lookupsAgree (c : Circuit) :
    LookupsAgree c.root (c.root.toNode.listed Node.connection?) c.connections c.connection?
      c.locate :=
  c.root.lists_listed.lookupsAgree c.connections_eq c.connection?_eq c.locate_eq

/-- Both ways to look up a connection by its number agree. Of the connections inside a connection
    the lookup gives the one of that number in pre-order, the search gives the path to just this
    one, and both give nothing exactly if there are no more connections than the number. The same
    holds of a circuit, whose root has number zero and comes before the connections inside it. -/
theorem lookups_agree :
    (∀ c : Connection Element, ∃ entries, c.Lists (· ≠ []) entries ∧
      c.connectionCount = entries.length ∧
      LookupsAgree c entries c.nested c.nested? c.locate) ∧
    ∀ c : Circuit, ∃ entries, c.root.Lists (fun _ => True) entries ∧
      LookupsAgree c.root entries c.connections c.connection? c.locate ∧
      (c.connection? 0 = some c.root ∧ c.locate 0 = some []) ∧
      ∀ index, c.connection? (index + 1) = c.root.nested? index ∧
        c.locate (index + 1) = c.root.locate index := by
  constructor
  · intro c
    refine ⟨c.listedNested, c.lists_listedNested, ?_, ?_⟩
    · rw [c.connectionCount_eq, c.nested_eq, List.length_map]
    · exact c.lists_listedNested.lookupsAgree c.nested_eq (fun _ => rfl) c.locate_eq
  · intro c
    exact ⟨c.root.toNode.listed Node.connection?, c.root.lists_listed, c.lookupsAgree, ⟨rfl, rfl⟩,
      fun index => ⟨rfl, rfl⟩⟩

end Circuit

end CircuitCode
