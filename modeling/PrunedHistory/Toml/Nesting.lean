import PrunedHistory.Toml.Value

/-! Building tables from statements

    Keys of several parts and heads of tables make the tables they pass through. A table can be opened again only while
    it was merely passed through: a table with a head of its own, or made by the parts of a key, takes no second head,
    and the parts of a key do not reach into a table with a head. -/

namespace PrunedHistory.Toml

/-- What one line of a document says. -/
inductive Statement where
  /-- Gives a key of one or more parts a value. -/
  | assign (key : List (List Char)) (value : Value)
  /-- Opens a table. -/
  | table (key : List (List Char))
  /-- Opens the next element of an array of tables. -/
  | element (key : List (List Char))

/-- An entry of a table while the document is read. -/
inductive Node where
  /-- A value, which is closed. -/
  | leaf (value : Value)
  /-- A table: `passed` if no head or inline table has made it, `byKey` if the parts of a key have. -/
  | table (passed byKey : Bool) (entries : List (List Char × Node))
  /-- An array of tables with heads. -/
  | tables (elements : List (List (List Char × Node)))

/-- The entries of a table that is still open. -/
abbrev Node.Entries := List (List Char × Node)

namespace Node

/-! ### The finished value -/

mutual

/-- The value that a node comes to once the document is read; how it was made does not matter any more. -/
def value : Node → Value
  | leaf v => v
  | table _ _ entries => .table (entryValues entries)
  | tables elements => .array (tableValues elements)

def entryValues : List (List Char × Node) → List (List Char × Value)
  | [] => []
  | (key, node) :: rest => (key, node.value) :: entryValues rest

def tableValues : List (List (List Char × Node)) → List Value
  | [] => []
  | entries :: rest => .table (entryValues entries) :: tableValues rest

end

/-! ### Changing one entry -/

/-- Changes what stands under a key, or puts something new there. -/
def change (key : List Char) (f : Option Node → Option Node) : Entries → Option Entries
  | [] => (f none).map fun node => [(key, node)]
  | (k, node) :: rest =>
    if k = key then (f (some node)).map fun node => (k, node) :: rest
    else (change key f rest).map ((k, node) :: ·)

/-- Changes the entries at the end of a path; tables on the way are made if they are not there, and an array of tables
    is entered at its last element. The change is told whether the parts of a key made the table it is in. -/
def descend (byKey : Bool) (f : Bool → Entries → Option Entries) :
    List (List Char) → Bool → Entries → Option Entries
  | [], madeByKey, entries => f madeByKey entries
  | key :: path, _, entries => change key (fun
    | none => (descend byKey f path byKey []).map (.table true byKey)
    | some (.leaf _) => none
    | some (.table passed madeByKey entries) =>
      -- A table with a head of its own is closed to the parts of a key.
      if byKey && !passed then none
      else (descend byKey f path madeByKey entries).map (.table passed madeByKey)
    | some (.tables elements) =>
      match elements.getLast? with
      | none => none
      | some last => (descend byKey f path false last).map fun last => .tables (elements.dropLast ++ [last])) entries

/-- Gives a key a value it has not had. A key of several parts ends in a table that such keys have made. -/
def assign (entries : Entries) (key : List (List Char)) (value : Value) : Option Entries :=
  match key.getLast? with
  | none => none
  | some last =>
    let path := key.dropLast
    descend true (fun madeByKey entries =>
      -- With parts before the last, the table has to be one that such parts made; with none, it is the section's own.
      if madeByKey == path.isEmpty then none
      else change last (fun
        | none => some (.leaf value)
        | some _ => none) entries) path false entries

end Node

open Node

/-- The entries that assignments make on top of others. -/
def assignAll (entries : Entries) (pairs : List (List (List Char) × Value)) : Option Entries :=
  pairs.foldlM (fun entries (key, value) => assign entries key value) entries

/-- The entries of an inline table. -/
def tableOfPairs? (pairs : List (List (List Char) × Value)) : Option Table :=
  (assignAll [] pairs).map entryValues

/-! ### Sections -/

/-- Opens the table or the element of a head and fills it. -/
def addSection (isElement : Bool) (key : List (List Char)) (pairs : List (List (List Char) × Value))
    (root : Entries) : Option Entries :=
  match key.getLast? with
  | none => none
  | some last =>
    let open? : Option Node → Option Node
      | none =>
        if isElement then (assignAll [] pairs).map fun entries => .tables [entries]
        else (assignAll [] pairs).map (.table false false)
      | some (.tables elements) =>
        if isElement then (assignAll [] pairs).map fun entries => .tables (elements ++ [entries]) else none
      -- Passed through so far: the table is there, and its own head still to come.
      | some (.table true false entries) =>
        if isElement then none else (assignAll entries pairs).map (.table false false)
      | some _ => none
    descend false (fun _ => change last open?) key.dropLast false root

/-- The pairs up to the next head, and the statements from there on. -/
def takePairs : List Statement → List (List (List Char) × Value) × List Statement
  | .assign key value :: rest => let (pairs, rest) := takePairs rest; ((key, value) :: pairs, rest)
  | rest => ([], rest)

/-- Adds the sections of the statements one after the other, each with the pairs after its head. -/
def addSections (root : Entries) : List Statement → Option Entries
  | [] => some root
  | .assign _ _ :: rest => addSections root rest
  | .table key :: rest => (addSection false key (takePairs rest).1 root).bind fun root => addSections root rest
  | .element key :: rest => (addSection true key (takePairs rest).1 root).bind fun root => addSections root rest

/-- The top-level table that statements make: first the pairs before any head, then the sections. -/
def tableOfStatements? (statements : List Statement) : Option Table := do
  let (pairs, rest) := takePairs statements
  return entryValues (← addSections (← assignAll [] pairs) rest)

end PrunedHistory.Toml
