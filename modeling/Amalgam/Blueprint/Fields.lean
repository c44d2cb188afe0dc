import Amalgam.Blueprint
import Amalgam.Value.Spelling

/-!
The fields of a composite: those of the base first, then those of the mixins, the first of a name counting.

The reserved field comes before all others and records the contributors. Only composites may bring one along, and theirs
is dropped.
-/

namespace Amalgam.Fields

def metadataKeys : List String := ["base", "mixins", "capability_sets"]

/-- The record of a composite's contributors. -/
def metadata (base : String) (mixins capabilitySets : List String) : Value :=
  .dict [(.str "base", .str base), (.str "mixins", .list (mixins.map .str)),
    (.str "capability_sets", .list (capabilitySets.map .str))]

/-- The text of the record. -/
def metadataText (base : String) (mixins capabilitySets : List String) : String :=
  Value.spellSafely (fun _ => none) (metadata base mixins capabilitySets)

/-- Whether a value is the record of some composite. -/
def isMetadata : Value → Bool
  | .dict es =>
    let keys := es.map Prod.fst
    es.length == metadataKeys.length && metadataKeys.all fun k => keys.any fun v => v.same (.str k)
  | _ => false

/-- Whether a text is a literal that records a composite's contributors. -/
def isMetadataText (text : Option String) : Bool :=
  match text.bind Literal.read? with
  | some v => isMetadata v
  | none => false

/-- A field as its composite has it. -/
def FieldDef.ofField (origin : SymbolRef) (f : Field) : FieldDef where
  name := f.name
  default := f.default
  origin := origin.path
  hint := f.hint
  visibility := f.visibility
  isDescriptor := f.isDescriptor

/-- Adds the fields of one contributor to those so far. -/
def addAll (origin : SymbolRef) : List FieldDef → List Field → Except Failure (List FieldDef)
  | done, [] => .ok done
  | done, f :: rest =>
    if f.name == reservedField then
      if isMetadataText f.default then addAll origin done rest
      else .error (.refusal (.reservedField origin.path))
    else if f.isStatic || (done.map FieldDef.name).contains f.name then addAll origin done rest
    else addAll origin (done ++ [FieldDef.ofField origin f]) rest

/-- Adds the fields of the contributors one after another. -/
def addContributors {σ : Type} (p : Provider σ) : List FieldDef → List SymbolRef → Act σ (List FieldDef)
  | done, [] => pure done
  | done, r :: rest => do
    let manifest ← p.manifest r
    let done ← Act.ofExcept (addAll r done manifest.fields)
    addContributors p done rest

/-- The reserved field of a composite. -/
def reserved (base : SymbolRef) (mixins : List SymbolRef) (capabilitySets : List String) : FieldDef where
  name := reservedField
  default := some (metadataText base.path (mixins.map SymbolRef.path) capabilitySets)
  origin := ""

/-- All fields of a composite. -/
def synthesize {σ : Type} (p : Provider σ) (base : SymbolRef) (mixins : List SymbolRef) (capabilitySets : List String) :
    Act σ (List FieldDef) :=
  addContributors p [reserved base mixins capabilitySets] (base :: mixins)

end Amalgam.Fields
