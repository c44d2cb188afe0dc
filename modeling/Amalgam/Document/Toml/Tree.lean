import Amalgam.Document

/-!
The tree a TOML text builds up, statement by statement.

A table remembers how it came to be, which decides how it may be reopened: a table implied by a longer header may still
be declared or extended; one opened by a dotted key may be extended in the same section only; a declared one may not be
declared again nor be reached by a dotted key. Written values are closed.
-/

namespace Amalgam.Document.Toml

/-- How a table came to be. -/
inductive Origin where
  | implied
  | dotted (part : Nat)
  | declared
  deriving DecidableEq

/-- A node of the tree. -/
inductive Node where
  | leaf (value : Document)
  | table (origin : Origin) (entries : List (String × Node))
  | tables (items : List (List (String × Node)))

/-- The table under construction that a node stands for: itself, or the last of its tables. -/
def Node.entries? : Node → Option (Entries Node)
  | .leaf _ => none
  | .table _ es => some es
  | .tables items => items.getLast?

/-- The node with that table replaced. -/
def Node.withEntries (n : Node) (es : Entries Node) : Node :=
  match n with
  | .leaf d => .leaf d
  | .table origin _ => .table origin es
  | .tables items => .tables (items.dropLast ++ [es])

/-- Changes the table at a path, tables on the way being implied where they are missing. -/
def alterAt (change : Entries Node → Option (Entries Node)) : List String → Entries Node → Option (Entries Node)
  | [], es => change es
  | k :: path, es =>
    match es.get? k with
    | none => (alterAt change path []).map fun sub => es.put k (.table .implied sub)
    | some n => do
      let sub ← n.entries?
      let sub ← alterAt change path sub
      some (es.put k (n.withEntries sub))

/-- Declares a table under its last key. -/
def declareKey (k : String) (es : Entries Node) : Option (Entries Node) :=
  match es.get? k with
  | none => some (es.put k (.table .declared []))
  | some (.table .implied sub) => some (es.put k (.table .declared sub))
  | some _ => none

/-- Opens one more table in the array under its last key. -/
def appendKey (k : String) (es : Entries Node) : Option (Entries Node) :=
  match es.get? k with
  | none => some (es.put k (.tables [[]]))
  | some (.tables items) => some (es.put k (.tables (items ++ [[]])))
  | some _ => none

/-- Writes a value under a dotted key in the given section. -/
def assign (part : Nat) : List String → Document → Entries Node → Option (Entries Node)
  | [], _, _ => none
  | [k], value, es => if es.has k then none else some (es.put k (.leaf value))
  | k :: path, value, es =>
    match es.get? k with
    | none => (assign part path value []).map fun sub => es.put k (.table (.dotted part) sub)
    | some (.table origin sub) =>
      if origin = .implied ∨ origin = .dotted part then
        (assign part path value sub).map fun sub => es.put k (.table (.dotted part) sub)
      else none
    | some _ => none

mutual

/-- The document a node stands for. -/
def Node.toDocument : Node → Document
  | .leaf d => d
  | .table _ es => .table (documentEntries es)
  | .tables items => .list (documentTables items)

/-- The documents of table entries. -/
def documentEntries : List (String × Node) → List (String × Document)
  | [] => []
  | (k, n) :: es => (k, n.toDocument) :: documentEntries es

/-- The documents of an array of tables. -/
def documentTables : List (List (String × Node)) → List Document
  | [] => []
  | es :: items => .table (documentEntries es) :: documentTables items

end

end Amalgam.Document.Toml
