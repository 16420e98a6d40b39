import WordTemplate.Toml.Value

/-!
# Putting tables together

A TOML document fills one table step by step: keys of several names make tables inside tables, and
headers go to a table anywhere. Nothing is given twice, and a table is not reopened by another means
than it was made with. `Node` is a table or value on the way, with what decides whether it can take
more.
-/

namespace WordTemplate.Toml

/-- One or more names. -/
structure Key where
  /-- The tables on the way. -/
  way : List String
  /-- The last name. -/
  name : String
  deriving Repr

structure Pair where
  key : Key
  value : Toml
  deriving Repr

inductive Header where
  /-- The pairs below fill this table. -/
  | table (key : Key)
  /-- The pairs below fill a new table at the end of this array. -/
  | item (key : Key)
  deriving Repr

/-- What made a table. -/
inductive Origin where
  /-- A header that goes on to a table inside. -/
  | implied
  /-- A header of its own. -/
  | header
  /-- A key of several names, or one that went through what a header implied. -/
  | key
  deriving DecidableEq, Repr

inductive Node where
  /-- A value written in one piece; nothing is added to it. -/
  | value (v : Toml)
  | table (origin : Origin) (entries : List (String × Node))
  /-- The tables that headers put into an array, the last one first. -/
  | items (tables : List (List (String × Node)))

abbrev Entries := List (String × Node)

namespace Node

mutual

def toToml : Node → Toml
  | value v => v
  | table _ entries => .table (tomlEntries entries)
  | items tables => .array (tomlTables tables).reverse

def tomlEntries : List (String × Node) → List (String × Toml)
  | [] => []
  | (name, node) :: entries => (name, node.toToml) :: tomlEntries entries

def tomlTables : List (List (String × Node)) → List Toml
  | [] => []
  | entries :: tables => .table (tomlEntries entries) :: tomlTables tables

end

end Node

namespace Entries

/-- Puts the result of `change` in the place of what has the name, or at the end. -/
def alter? (name : String) (change : Option Node → Option Node) : Entries → Option Entries
  | [] => (change none).map fun node => [(name, node)]
  | (other, node) :: entries =>
    if other = name then (change (some node)).map fun node => (other, node) :: entries
    else (alter? name change entries).map ((other, node) :: ·)

/-- Adds a value under a new name. -/
def insert? (name : String) (v : Toml) : Entries → Option Entries :=
  alter? name fun
    | none => some (.value v)
    | some _ => none

/-- Adds a value under a key. The tables on the way may not have a header of their own, and count as
made by a key from then on. The way can lead through the last table of an array, but not end in
it. -/
def addAt? (name : String) (v : Toml) : List String → Entries → Option Entries
  | [] => insert? name v
  | step :: way => alter? step fun
    | none => (addAt? name v way []).map (.table .key)
    | some (.table .header _) => none
    | some (.table _ entries) => (addAt? name v way entries).map (.table .key)
    | some (.items (last :: tables)) =>
      if way.isEmpty then none
      else (addAt? name v way last).map fun last => .items (last :: tables)
    | some _ => none

def add? (entries : Entries) (pair : Pair) : Option Entries :=
  addAt? pair.key.name pair.value pair.key.way entries

/-- Changes the table that a header goes to: through tables of any origin, and through the last
table of an array. -/
def changeAt? (change : Entries → Option Entries) : List String → Entries → Option Entries
  | [] => change
  | step :: way => alter? step fun
    | none => (changeAt? change way []).map (.table .implied)
    | some (.table origin entries) => (changeAt? change way entries).map (.table origin)
    | some (.items (last :: tables)) =>
      (changeAt? change way last).map fun last => .items (last :: tables)
    | some _ => none

/-- Adds a header and the pairs under it. -/
def addSection? (entries : Entries) (added : Header × List Pair) : Option Entries :=
  let fill (entries : Entries) : Option Entries := added.2.foldlM add? entries
  match added.1 with
  | .table key => changeAt? (alter? key.name fun
      | none => (fill []).map (.table .header)
      | some (.table .implied entries) => (fill entries).map (.table .header)
      | some _ => none) key.way entries
  | .item key => changeAt? (alter? key.name fun
      | none => (fill []).map fun table => .items [table]
      | some (.items tables) => (fill []).map fun table => .items (table :: tables)
      | some _ => none) key.way entries

def toToml (entries : Entries) : Toml :=
  .table (Node.tomlEntries entries)

end Entries

/-- The table with these pairs. -/
def ofPairs? (pairs : List Pair) : Option Toml :=
  (pairs.foldlM Entries.add? []).map Entries.toToml

/-- The table of a document: pairs, and sections with headers. -/
def ofSections? (pairs : List Pair) (sections : List (Header × List Pair)) : Option Toml := do
  let entries ← pairs.foldlM Entries.add? []
  return (← sections.foldlM Entries.addSection? entries).toToml

end WordTemplate.Toml
