import CircuitCode.SymbolTable

/-!
# Lookup in symbol tables

A table finds what was bound last, so it finds every binding of a list in which no name comes
twice. It is sorted by name, so it has one entry a name; it keeps all entries of a list exactly if
no name comes twice there (`SymbolTable.perm_ofList_iff`).
-/

namespace CircuitCode

namespace SymbolTable

variable {β : Type}

theorem find?_cons (entry : String × β) (table : SymbolTable β) (name : String) :
    find? (entry :: table) name = if entry.1 = name then some entry.2 else find? table name := by
  by_cases h : entry.1 = name
  · simp [find?, h]
  · simp [find?, h]

/-- A table finds exactly the names that it has. -/
theorem isSome_find?_iff {table : SymbolTable β} {name : String} :
    (table.find? name).isSome ↔ name ∈ table.names := by
  induction table with
  | nil => simp [find?, names]
  | cons entry table ih =>
    rw [find?_cons]
    by_cases h : entry.1 = name
    · simp [h, names]
    · rw [if_neg h, ih]
      simp [names, Ne.symm h]

/-- Where no name comes twice every entry is found, in whatever order they stand. -/
theorem find?_of_mem {table : SymbolTable β} (h : table.names.Nodup) {entry : String × β}
    (hmem : entry ∈ table) : table.find? entry.1 = some entry.2 := by
  induction table with
  | nil => cases hmem
  | cons first table ih =>
    obtain ⟨hfirst, hothers⟩ := List.nodup_cons.mp h
    rw [find?_cons]
    rcases List.mem_cons.mp hmem with rfl | hmem
    · rw [if_pos rfl]
    · have hne : first.1 ≠ entry.1 := by
        intro heq
        apply hfirst
        rw [heq]
        exact List.mem_map_of_mem hmem
      rw [if_neg hne, ih hothers hmem]

theorem find?_insert (table : SymbolTable β) (name : String) (value : β) (other : String) :
    find? (table.insert name value) other =
      if name = other then some value else find? table other := by
  induction table with
  | nil => rw [insert, find?_cons]
  | cons entry rest ih =>
    obtain ⟨bound, old⟩ := entry
    rw [insert]
    by_cases hlt : name < bound
    · rw [if_pos hlt, find?_cons]
    rw [if_neg hlt]
    by_cases heq : name = bound
    · subst heq
      rw [if_pos rfl, find?_cons, find?_cons]
      by_cases hother : name = other
      · rw [if_pos hother, if_pos hother]
      · rw [if_neg hother, if_neg hother, if_neg hother]
    · rw [if_neg heq, find?_cons, find?_cons, ih]
      by_cases hother : bound = other
      · subst hother
        rw [if_pos rfl, if_neg heq, if_pos rfl]
      · rw [if_neg hother, if_neg hother]

theorem find?_append (table table' : SymbolTable β) (name : String) :
    find? (table ++ table') name = (find? table name).or (find? table' name) := by
  simp [find?, List.find?_append, Option.map_or]

theorem find?_foldl_insert (entries : List (String × β)) (table : SymbolTable β)
    (name : String) :
    find? (entries.foldl (fun table entry => table.insert entry.1 entry.2) table) name =
      find? (entries.reverse ++ table) name := by
  induction entries generalizing table with
  | nil => rfl
  | cons entry entries ih =>
    rw [List.foldl_cons, ih, find?_append, find?_insert, ← find?_cons (entry.1, entry.2),
      ← find?_append, List.reverse_cons, List.append_assoc]
    rfl

/-- Of several values for one name the last one is found. -/
theorem find?_ofList_eq_reverse (entries : List (String × β)) (name : String) :
    (ofList entries).find? name = find? entries.reverse name := by
  rw [ofList, find?_foldl_insert, List.append_nil]

/-- Every binding is found if no name is bound twice. -/
theorem find?_ofList {entries : List (String × β)} (h : (entries.map Prod.fst).Nodup)
    {entry : String × β} (hmem : entry ∈ entries) :
    (ofList entries).find? entry.1 = some entry.2 := by
  rw [find?_ofList_eq_reverse]
  apply find?_of_mem
  · rw [names, List.map_reverse]
    exact (List.reverse_perm _).nodup_iff.mpr h
  · exact List.mem_reverse.mpr hmem

theorem mem_names_insert {table : SymbolTable β} {name : String} {value : β} {other : String} :
    other ∈ (table.insert name value).names ↔ other = name ∨ other ∈ table.names := by
  induction table with
  | nil => simp [insert, names]
  | cons entry rest ih =>
    rcases entry with ⟨bound, old⟩
    unfold names at ih ⊢
    rw [insert]
    by_cases hlt : name < bound
    · simp [hlt]
    · by_cases heq : name = bound
      · subst heq
        rw [if_neg hlt, if_pos rfl]
        simp
      · simp only [hlt, heq, if_false, List.map_cons, List.mem_cons, ih]
        exact or_left_comm

theorem mem_names_foldl_insert {entries : List (String × β)} {table : SymbolTable β}
    {name : String} :
    name ∈ (entries.foldl (fun table entry => table.insert entry.1 entry.2) table).names ↔
      name ∈ entries.map Prod.fst ∨ name ∈ table.names := by
  induction entries generalizing table with
  | nil => simp
  | cons entry entries ih =>
    rw [List.foldl_cons, ih, mem_names_insert, List.map_cons, List.mem_cons]
    exact or_left_comm.trans or_assoc.symm

/-- The names of a table are those that are bound. -/
theorem mem_names_ofList {entries : List (String × β)} {name : String} :
    name ∈ (ofList entries).names ↔ name ∈ entries.map Prod.fst := by
  rw [ofList, mem_names_foldl_insert]
  simp [names]

/-- The names stand in order, each of them once. -/
def Sorted (table : SymbolTable β) : Prop := table.names.Pairwise (· < ·)

theorem sorted_insert {table : SymbolTable β} (h : table.Sorted) (name : String) (value : β) :
    (table.insert name value).Sorted := by
  induction table with
  | nil => exact List.pairwise_singleton _ _
  | cons entry rest ih =>
    rcases entry with ⟨bound, old⟩
    obtain ⟨hbound, hrest⟩ := List.pairwise_cons.mp h
    rw [insert]
    by_cases hlt : name < bound
    · rw [if_pos hlt]
      apply List.pairwise_cons.mpr
      refine ⟨?_, h⟩
      intro other hother
      rcases List.mem_cons.mp hother with rfl | hother
      · exact hlt
      · exact String.lt_trans hlt (hbound other hother)
    · rw [if_neg hlt]
      by_cases heq : name = bound
      · subst heq
        rw [if_pos rfl]
        exact h
      · rw [if_neg heq]
        apply List.pairwise_cons.mpr
        refine ⟨?_, ih hrest⟩
        intro other hother
        rcases mem_names_insert.mp hother with rfl | hother
        · by_cases habove : bound < other
          · exact habove
          · exact absurd (String.le_antisymm (String.not_lt.mp habove) (String.not_lt.mp hlt)) heq
        · exact hbound other hother

theorem sorted_foldl_insert (entries : List (String × β)) {table : SymbolTable β}
    (h : table.Sorted) :
    Sorted (entries.foldl (fun table entry => table.insert entry.1 entry.2) table) := by
  induction entries generalizing table with
  | nil => exact h
  | cons entry entries ih => exact ih (sorted_insert h entry.1 entry.2)

/-- No name comes twice in a table. -/
theorem nodup_names_ofList (entries : List (String × β)) : (ofList entries).names.Nodup := by
  have hsorted : (ofList entries).Sorted := sorted_foldl_insert entries List.Pairwise.nil
  refine List.Pairwise.imp ?_ hsorted
  intro name other hlt heq
  subst heq
  exact String.lt_irrefl name hlt

theorem perm_insert_of_notMem {table : SymbolTable β} {name : String} (h : name ∉ table.names)
    (value : β) : (table.insert name value).Perm ((name, value) :: table) := by
  induction table with
  | nil => exact List.Perm.refl _
  | cons entry rest ih =>
    rcases entry with ⟨bound, old⟩
    obtain ⟨hbound, hrest⟩ : name ≠ bound ∧ name ∉ names rest := by
      simpa [names] using h
    rw [insert]
    by_cases hlt : name < bound
    · rw [if_pos hlt]
    · rw [if_neg hlt, if_neg hbound]
      exact ((ih hrest).cons _).trans (List.Perm.swap _ _ _)

theorem perm_foldl_insert {entries : List (String × β)} {table : SymbolTable β}
    (h : ((entries ++ table).map Prod.fst).Nodup) :
    (entries.foldl (fun table entry => table.insert entry.1 entry.2) table).Perm
      (entries ++ table) := by
  induction entries generalizing table with
  | nil => exact List.Perm.refl _
  | cons entry entries ih =>
    have hnew : entry.1 ∉ names table := by
      intro hmem
      apply (List.nodup_cons.mp h).1
      show entry.1 ∈ (entries ++ table).map Prod.fst
      rw [List.map_append]
      exact List.mem_append_right _ hmem
    -- The first binding moves to the table, where it is one entry more.
    have hmoved : (entries ++ table.insert entry.1 entry.2).Perm (entry :: entries ++ table) :=
      ((perm_insert_of_notMem hnew entry.2).append_left entries).trans List.perm_middle
    exact (ih ((hmoved.map Prod.fst).nodup_iff.mpr h)).trans hmoved

/-- A table keeps every binding of a list exactly if no name is bound twice there. -/
theorem perm_ofList_iff {entries : List (String × β)} :
    (ofList entries).Perm entries ↔ (entries.map Prod.fst).Nodup := by
  constructor
  · intro hperm
    exact (hperm.map Prod.fst).nodup_iff.mp (nodup_names_ofList entries)
  · intro h
    have hnil : ((entries ++ []).map Prod.fst).Nodup := by rwa [List.append_nil]
    have hperm := perm_foldl_insert hnil
    rwa [List.append_nil] at hperm

end SymbolTable

theorem mem_sortedNames {names : List String} {name : String} :
    name ∈ sortedNames names ↔ name ∈ names := by
  rw [sortedNames, SymbolTable.mem_names_ofList]
  simp

end CircuitCode
