/-!
# TOML documents

A document is a table of values. While it is read, tables remember how they came about, since that
decides what may still be added to them:

* `Toml.Value`: a finished value;
* `Toml.Node`: a value or table of a document part way through;
* `Toml.Node.assign?`: a key with a value is added, `a.b.c = value`;
* `Toml.Node.header?`: a table is begun, `[a.b.c]` or `[[a.b.c]]`.
-/

namespace HandleLint.Toml

/-- A value. Of floats and dates, which no setting has, only the literal is kept. -/
inductive Value
  | string (text : String)
  | integer (value : Int)
  | float (literal : String)
  | boolean (value : Bool)
  | datetime (literal : String)
  | array (items : List Value)
  | table (entries : List (String × Value))
  deriving Repr, Inhabited

/-- How a table came about. -/
inductive Origin
  /-- A header of its own, or the top of the document. -/
  | header
  /-- A header of a table inside it. -/
  | implied
  /-- A dotted key. -/
  | dotted
  deriving DecidableEq, Repr

/-- What a key of a document part way through stands for. -/
inductive Node
  | value (value : Value)
  | table (origin : Origin) (entries : List (String × Node))
  /-- An array of tables: those that are complete, the newest first, and the one that is open. -/
  | tables (before : List (List (String × Node))) (current : List (String × Node))

/-- The entries of a table, in the order in which their keys came up. -/
abbrev Entries := List (String × Node)

namespace Entries

/-- What a key stands for is replaced; a key that is not there is added at the end. -/
def set (key : String) (node : Node) : Entries → Entries
  | [] => [(key, node)]
  | (k, old) :: rest => if k = key then (k, node) :: rest else (k, old) :: set key node rest

end Entries

namespace Node

mutual

def toValue : Node → Value
  | value v => v
  | table _ entries => .table (toValues entries)
  | tables before current => .array (toTables before ++ [.table (toValues current)])

def toValues : List (String × Node) → List (String × Value)
  | [] => []
  | (key, node) :: rest => (key, node.toValue) :: toValues rest

/-- The complete tables of an array, the oldest first. -/
def toTables : List (List (String × Node)) → List Value
  | [] => []
  | entries :: rest => toTables rest ++ [.table (toValues entries)]

end

/-- Adds a value under the last key of a dotted key, whose earlier keys lead through tables that no
header began. Tables that are not there yet come about on the way. -/
def assign? (key : String) (v : Value) : List String → Entries → Option Entries
  | [], entries => if (entries.lookup key).isSome then none else some (entries.set key (value v))
  | k :: path, entries =>
    match entries.lookup k with
    | none => do return entries.set k (table .dotted (← assign? key v path []))
    | some (table origin inner) =>
      if origin = .header ∨ (path.isEmpty ∧ origin ≠ .dotted) then none
      else do return entries.set k (table origin (← assign? key v path inner))
    | some (tables before current) =>
      if path.isEmpty then none
      else do return entries.set k (tables before (← assign? key v path current))
    | some (value _) => none

/-- Adds a value inside the table that a header leads to. -/
def assignIn? (path : List String) (key : String) (v : Value) :
    List String → Entries → Option Entries
  | [], entries => assign? key v path entries
  | k :: inside, entries =>
    match entries.lookup k with
    | some (table origin inner) => do
      return entries.set k (table origin (← assignIn? path key v inside inner))
    | some (tables before current) => do
      return entries.set k (tables before (← assignIn? path key v inside current))
    | some (value _) | none => none

/-- Begins a table. One that a longer header has implied may be begun once; an array of tables
(`isArray`) gets one more. -/
def header? (isArray : Bool) : List String → Entries → Option Entries
  | [], _ => none
  | [k], entries =>
    match isArray, entries.lookup k with
    | true, none => some (entries.set k (tables [] []))
    | true, some (tables before current) => some (entries.set k (tables (current :: before) []))
    | false, none => some (entries.set k (table .header []))
    | false, some (table .implied inner) => some (entries.set k (table .header inner))
    | _, _ => none
  | k :: path, entries =>
    match entries.lookup k with
    | none => do return entries.set k (table .implied (← header? isArray path []))
    | some (table origin inner) => do
      return entries.set k (table origin (← header? isArray path inner))
    | some (tables before current) => do
      return entries.set k (tables before (← header? isArray path current))
    | some (value _) => none

end Node

/-- The inline table of some dotted keys with their values. -/
def Value.inlineTable? (pairs : List (List String × String × Value)) : Option Value := do
  let entries ← pairs.foldlM (fun entries (path, key, v) => Node.assign? key v path entries) []
  return .table (Node.toValues entries)

/-- A line of a document that says something. -/
inductive Statement
  /-- `[path]`, or `[[path]]` for one more table of an array. -/
  | header (isArray : Bool) (path : List String)
  /-- `path.key = value`. -/
  | assign (path : List String) (key : String) (value : Value)

/-- A document part way through. -/
structure Document where
  entries : Entries := []
  /-- The path of the header last read. -/
  inside : List String := []

namespace Document

def add? (d : Document) : Statement → Option Document
  | .header isArray path => do
    return { entries := ← Node.header? isArray path d.entries, inside := path }
  | .assign path key value => do
    return { d with entries := ← Node.assignIn? path key value d.inside d.entries }

/-- The top table of the document that some lines make up. -/
def ofStatements? (statements : List Statement) : Option Value := do
  let d ← statements.foldlM add? {}
  return .table (Node.toValues d.entries)

end Document

end HandleLint.Toml
