/-!
# Symbol tables

Values bound to names, sorted by name in the order of code points, with one entry a name.
-/

namespace CircuitCode

/-- Names and their values, in the order of the names. -/
abbrev SymbolTable (β : Type) := List (String × β)

namespace SymbolTable

variable {β : Type}

/-- Binds a name. A value bound to it before is replaced. -/
def insert (name : String) (value : β) : SymbolTable β → SymbolTable β
  | [] => [(name, value)]
  | (other, old) :: rest =>
    if name < other then (name, value) :: (other, old) :: rest
    else if name = other then (name, value) :: rest
    else (other, old) :: insert name value rest

/-- The table of the given bindings; of several for one name the last one counts. -/
def ofList (entries : List (String × β)) : SymbolTable β :=
  entries.foldl (fun table entry => table.insert entry.1 entry.2) []

def names (table : SymbolTable β) : List String := table.map Prod.fst

/-- The value bound to a name. -/
def find? (table : SymbolTable β) (name : String) : Option β :=
  (List.find? (fun entry => entry.1 == name) table).map Prod.snd

end SymbolTable

/-- The different names among the given ones, in order. -/
def sortedNames (names : List String) : List String :=
  (SymbolTable.ofList (names.map fun name => (name, ()))).names

end CircuitCode
