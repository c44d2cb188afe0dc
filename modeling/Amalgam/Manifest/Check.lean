import Amalgam.Document.Check
import Amalgam.Manifest

/-!
Reading manifests from documents. Unknown keys are ignored; keys left out have the defaults of the types.
-/

namespace Amalgam

open Check

/-- Reads a reference. -/
def SymbolRef.check : Check SymbolRef := fun place d => do
  let es ← entries place d
  let (home, qualname) ← both (required text place es "module") (required text place es "qualname")
  return ⟨home, qualname⟩

/-- Reads a parameter. -/
def Param.check : Check Param := fun place d => do
  let es ← entries place d
  let (name, kind, default, hint) ←
    both (required text place es "name") <|
    both (optionalEntry (choice ParamKind.all ParamKind.text) .positionalOrKeyword place es "kind") <|
    both (optionalEntry (optional text) none place es "default")
      (optionalEntry (optional text) none place es "annotation")
  return { name, kind, default, hint }

/-- Reads a visibility. -/
def Visibility.check : Check Visibility := choice Visibility.all Visibility.text

/-- Reads a member. -/
def Signature.check : Check Signature := fun place d => do
  let es ← entries place d
  let (name, kind, visibility, params, isAbstract, isFinal, isAsync) ←
    both (required text place es "name") <|
    both (optionalEntry (choice MemberKind.all MemberKind.text) .ofInstance place es "kind") <|
    both (optionalEntry Visibility.check .free place es "visibility") <|
    both (optionalEntry (list Param.check) [] place es "params") <|
    both (optionalEntry bool false place es "is_abstract") <|
    both (optionalEntry bool false place es "is_final")
      (optionalEntry bool false place es "is_async")
  return { name, kind, visibility, params, isAbstract, isFinal, isAsync }

/-- Reads a field. -/
def Field.check : Check Field := fun place d => do
  let es ← entries place d
  let (name, default, hint, visibility, isStatic, isDescriptor) ←
    both (required text place es "name") <|
    both (optionalEntry (optional text) none place es "default") <|
    both (optionalEntry (optional text) none place es "annotation") <|
    both (optionalEntry Visibility.check .free place es "visibility") <|
    both (optionalEntry bool false place es "is_static")
      (optionalEntry bool false place es "is_descriptor")
  return { name, default, hint, visibility, isStatic, isDescriptor }

/-- Reads a manifest. -/
def Manifest.check : Check Manifest := fun place d => do
  let es ← entries place d
  let (ref, members, fields, capabilitySets) ←
    both (required SymbolRef.check place es "ref") <|
    both (optionalEntry (list Signature.check) [] place es "members") <|
    both (optionalEntry (list Field.check) [] place es "fields")
      (optionalEntry (list SymbolRef.check) [] place es "capability_sets")
  return { ref, members, fields, capabilitySets }

/-- Manifests as documents, all keys written. -/
def SymbolRef.document (r : SymbolRef) : Document := .table [("module", .str r.home), ("qualname", .str r.qualname)]

/-- A text or null. -/
def Document.ofText? : Option String → Document
  | some s => .str s
  | none => .null

def Param.document (p : Param) : Document :=
  .table [("name", .str p.name), ("kind", .str p.kind.text), ("default", .ofText? p.default),
    ("annotation", .ofText? p.hint)]

def Signature.document (s : Signature) : Document :=
  .table [("name", .str s.name), ("kind", .str s.kind.text), ("visibility", .str s.visibility.text),
    ("params", .list (s.params.map Param.document)), ("is_abstract", .bool s.isAbstract), ("is_final", .bool s.isFinal),
    ("is_async", .bool s.isAsync)]

def Field.document (f : Field) : Document :=
  .table [("name", .str f.name), ("default", .ofText? f.default), ("annotation", .ofText? f.hint),
    ("visibility", .str f.visibility.text), ("is_static", .bool f.isStatic), ("is_descriptor", .bool f.isDescriptor)]

def Manifest.document (m : Manifest) : Document :=
  .table [("ref", m.ref.document), ("members", .list (m.members.map Signature.document)),
    ("fields", .list (m.fields.map Field.document)), ("capability_sets", .list (m.capabilitySets.map SymbolRef.document))]

end Amalgam
