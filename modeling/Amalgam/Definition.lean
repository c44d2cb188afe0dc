import Amalgam.Blueprint.Build
import Amalgam.Manifest.Check

/-!
Definitions: composites described by documents.

A definition holds all that a request needs, by names, and may carry the manifests of its contributors.
-/

namespace Amalgam

/-- The cutpoints of a definition. -/
inductive Selection where
  | absent
  | flag (value : Bool)
  | names (names : List String)
  deriving DecidableEq, Repr

def Selection.cutpoints : Selection → Cutpoints
  | absent => .nothing
  | flag true => .everything
  | flag false => .nothing
  | names ns => .some (ns.map .name)

def Selection.document : Selection → Document
  | absent => .null
  | flag b => .bool b
  | names ns => .list (ns.map .str)

/-- A combinator of a definition: a function, or a function and perhaps an order. -/
inductive CombinatorDef where
  | path (function : String)
  | ordered (function : String) (order : Option (List String))
  deriving DecidableEq, Repr

def CombinatorDef.entry : CombinatorDef → CombinatorEntry
  | path f => .single (.text f)
  | ordered f none => .single (.text f)
  | ordered f (some order) => .ordered (.text f) (order.map .text)

def CombinatorDef.document : CombinatorDef → Document
  | path f => .str f
  | ordered f order =>
    .table [("function", .str f), ("order", (order.map fun o => Document.list (o.map .str)).getD .null)]

/-- A composite class as a document describes it. -/
structure Definition where
  name : String
  base : String
  mixins : List String := []
  combinators : Entries CombinatorDef := []
  before : Selection := .absent
  after : Selection := .absent
  manifests : Option (List Manifest) := none
  deriving DecidableEq, Repr

namespace Definition

open Check

/-- A name that a class may have. -/
def className : Check String := fun place d => do
  let name ← text place d
  if Text.isFreeName name then return name
  else fail place (.badValue ("Value error, '" ++ name ++ "' is not a valid class name"))

/-- A truth value or a list of names; complaints say which of the two was tried. -/
def selection : Check Selection := fun place d =>
  match d with
  | .null => .ok .absent
  | .list _ =>
    match list text (place ++ [.key "list[str]"]) d with
    | .ok names => .ok (.names names)
    | .error es => .error (⟨place ++ [.key "bool"], .notBool⟩ :: es)
  | d =>
    match Check.bool (place ++ [.key "bool"]) d with
    | .ok b => .ok (.flag b)
    | .error es => .error (es ++ [⟨place ++ [.key "list[str]"], .notList⟩])

/-- A function with its order. -/
def orderedCombinator : Check CombinatorDef := fun place d => do
  let es ← entries place d
  let (f, order) ← both (required text place es "function")
    (optionalEntry (optional (list text)) none place es "order")
  return .ordered f order

/-- A function, or a function with its order; complaints say which of the two was tried. -/
def combinator : Check CombinatorDef := fun place d =>
  match d with
  | .str f => .ok (.path f)
  | d =>
    match orderedCombinator (place ++ [.key "CombinatorDef"]) d with
    | .ok c => .ok c
    | .error es => .error (⟨place ++ [.key "str"], .notText⟩ :: es)

/-- Reads a definition. -/
def check : Check Definition := fun place d => do
  let es ← entries place d
  let (name, base, mixins, combinators, before, after, manifests) ←
    both (required className place es "new_class") <|
    both (required text place es "base") <|
    both (optionalEntry (list text) [] place es "mixins") <|
    both (optionalEntry (table combinator) [] place es "combinators") <|
    both (optionalEntry selection .absent place es "before_cutpoints") <|
    both (optionalEntry selection .absent place es "after_cutpoints")
      (optionalEntry (optional (list Manifest.check)) none place es "manifests")
  return { name, base, mixins, combinators, before, after, manifests }

/-- Reads a definition from a document. -/
def ofDocument (d : Document) : Checked Definition := check [] d

/-- A definition as a document, all keys written. -/
def document (d : Definition) : Document :=
  .table [("new_class", .str d.name), ("base", .str d.base), ("mixins", .list (d.mixins.map .str)),
    ("combinators", .table (d.combinators.map fun e => (e.1, e.2.document))), ("before_cutpoints", d.before.document),
    ("after_cutpoints", d.after.document),
    ("manifests", (d.manifests.map fun ms => Document.list (ms.map Manifest.document)).getD .null)]

/-- What the definition asks for. -/
def request (d : Definition) : Request where
  name := d.name
  base := .text d.base
  mixins := d.mixins.map .text
  combinators := d.combinators.map fun e => (e.1, e.2.entry)
  before := d.before.cutpoints
  after := d.after.cutpoints

end Definition

end Amalgam
