import Amalgam.Document

/-!
The schema of definitions, for editors and other tools: which keys a definition has, and what may stand under them.
-/

namespace Amalgam.Definition.Schema

/-- The schema of texts. -/
def ofText : Document := .table [("type", .str "string")]

def ofBool : Document := .table [("type", .str "boolean")]

def ofNull : Document := .table [("type", .str "null")]

/-- The schema of lists. -/
def ofList (item : Document) : Document := .table [("items", item), ("type", .str "array")]

/-- A reference to a named schema. -/
def named (name : String) : Document := .table [("$ref", .str ("#/$defs/" ++ name))]

/-- What several schemas allow. -/
def anyOf (choices : List Document) : Document := .table [("anyOf", .list choices)]

/-- What a schema allows, or nothing. -/
def orNull (d : Document) : Document :=
  match d with
  | .table [("anyOf", .list choices)] => anyOf (choices ++ [ofNull])
  | d => anyOf [d, ofNull]

/-- Letters after letters are small, others are capital; underscores become blanks. -/
def titleFrom : (afterLetter : Bool) → List Char → List Char
  | _, [] => []
  | afterLetter, c :: rest =>
    (if c == '_' then ' ' else if afterLetter then c.toLower else c.toUpper) :: titleFrom c.isAlpha rest

/-- The title of a key. -/
def titleOf (key : String) : String := String.ofList (titleFrom false key.toList)

/-- A key with its schema. -/
structure Property where
  key : String
  schema : Document
  default : Option Document := none
  description : Option String := none
  isRequired : Bool := false

/-- The entries of a schema, all keys in order. -/
def entriesOf (d : Document) : List (String × Document) := (d.entries?).getD []

/-- Whether entries refer to a named schema. -/
def isNamed (es : List (String × Document)) : Bool := es.any fun e => e.1 == "$ref"

/-- The schema of a key: a named schema carries no title of its own. -/
def Property.document (p : Property) : String × Document :=
  let es := entriesOf p.schema ++ (p.default.map ("default", ·)).toList ++
    (p.description.map fun t => ("description", Document.str t)).toList ++
    (if isNamed (entriesOf p.schema) then [] else [("title", .str (titleOf p.key))])
  (p.key, .table (es.mergeSort fun a b => decide (a.1 ≤ b.1)))

/-- The entries of the schema of a table. -/
def tableEntries (title description : String) (ps : List Property) : List (String × Document) :=
  [("description", .str description), ("properties", .table (ps.map Property.document)),
    ("required", .list ((ps.filter Property.isRequired).map fun p => .str p.key)), ("title", .str title),
    ("type", .str "object")]

/-- The schema of a choice among texts. -/
def choice (title description : String) (values : List String) : Document :=
  .table [("description", .str description), ("enum", .list (values.map .str)), ("title", .str title),
    ("type", .str "string")]

/-- The parts of definitions. -/
def parts : List (String × Document) :=
  [("CombinatorDef", .table (tableEntries "CombinatorDef" "Combination function with an explicit contributor order."
      [{ key := "function", schema := ofText, description := some "Combination function as 'module:qualname'.",
         isRequired := true },
       { key := "order", schema := orNull (ofList ofText), default := some .null,
         description :=
          some "Contributor paths in combination order. Types not defining the member are skipped." }])),
   ("FieldSpec", .table (tableEntries "FieldSpec" "Serializable snapshot of one field declaration."
      [{ key := "name", schema := ofText, isRequired := true },
       { key := "default", schema := orNull ofText, default := some .null,
         description := some "Source text (repr) of the value. None means declared but unset." },
       { key := "annotation", schema := orNull ofText, default := some .null },
       { key := "visibility", schema := named "Visibility", default := some (.str "public") },
       { key := "is_static", schema := ofBool, default := some (.bool false),
         description := some "True for ClassVar declarations, which are never copied." },
       { key := "is_descriptor", schema := ofBool, default := some (.bool false),
         description := some "True for properties, copied by reference to their origin." }])),
   ("MemberKind", choice "MemberKind" "Binding flavour of a method member." ["instance", "static", "class"]),
   ("MemberSignature", .table (tableEntries "MemberSignature" "Serializable snapshot of one method member."
      [{ key := "name", schema := ofText, isRequired := true },
       { key := "kind", schema := named "MemberKind", default := some (.str "instance") },
       { key := "visibility", schema := named "Visibility", default := some (.str "public") },
       { key := "params", schema := ofList (named "ParamSpec") },
       { key := "is_abstract", schema := ofBool, default := some (.bool false) },
       { key := "is_final", schema := ofBool, default := some (.bool false) },
       { key := "is_async", schema := ofBool, default := some (.bool false) }])),
   ("ParamKind", choice "ParamKind" "Parameter kinds, mirroring ``inspect.Parameter`` kinds."
      ["positional_only", "positional_or_keyword", "var_positional", "keyword_only", "var_keyword"]),
   ("ParamSpec", .table (tableEntries "ParamSpec"
      "Serializable representation of a method parameter (receiver excluded)."
      [{ key := "name", schema := ofText, isRequired := true },
       { key := "kind", schema := named "ParamKind", default := some (.str "positional_or_keyword") },
       { key := "default", schema := orNull ofText, default := some .null,
         description := some "Source text (repr) of the default. None means no default." },
       { key := "annotation", schema := orNull ofText, default := some .null }])),
   ("SymbolRef", .table (tableEntries "SymbolRef" "Address of a class or function that generated code can import."
      [{ key := "module", schema := ofText, isRequired := true },
       { key := "qualname", schema := ofText, isRequired := true }])),
   ("TypeManifest", .table (tableEntries "TypeManifest"
      ("Snapshot of a contributing type.\n\n" ++
        "Members and fields are kept in discovery order, which the engine relies on\nfor deterministic output.")
      [{ key := "ref", schema := named "SymbolRef", isRequired := true },
       { key := "members", schema := ofList (named "MemberSignature") },
       { key := "fields", schema := ofList (named "FieldSpec") },
       { key := "capability_sets", schema := ofList (named "SymbolRef") }])),
   ("Visibility", choice "Visibility" "Name-based visibility of a member or field." ["public", "protected", "private"])]

/-- The keys of definitions. -/
def keys : List Property :=
  [{ key := "new_class", schema := ofText, description := some "Name of the generated class.", isRequired := true },
   { key := "base", schema := ofText, description := some "Base type as 'module:qualname'.", isRequired := true },
   { key := "mixins", schema := ofList ofText, description := some "Mixin types in priority order." },
   { key := "combinators",
     schema :=
      .table [("additionalProperties", anyOf [ofText, named "CombinatorDef"]), ("type", .str "object")],
     description := some "Member name to function path, or to a \x7bfunction, order\x7d table." },
   { key := "before_cutpoints", schema := orNull (anyOf [ofBool, ofList ofText]), default := some .null,
     description := some "true for every member, or the member names (may include 'ALL') receiving before-advice." },
   { key := "after_cutpoints", schema := orNull (anyOf [ofBool, ofList ofText]), default := some .null,
     description := some "true for every member, or the member names (may include 'ALL') receiving after-advice." },
   { key := "manifests", schema := orNull (ofList (named "TypeManifest")), default := some .null,
     description := some "Explicit type snapshots. When set, contributors are not imported to plan the build." }]

/-- The schema of definitions. -/
def document : Document :=
  .table (("$defs", .table parts) :: tableEntries "MixDefinition" "Declarative description of one composite class." keys)

end Amalgam.Definition.Schema
