import Amalgam.Manifest
import Amalgam.World

/-!
Reading the manifest of a live class.

The class and its ancestors are gone through in search order, each in the order of its declarations; the first
declaration of a name counts, be it a member or a field. `declarationOrder` puts names that are only annotated before the
next annotated name that is stored.
-/

namespace Amalgam.World

/-- The mark classes that no one counts as an ancestor. -/
def markIds : List Nat := [abcId, protocolId, genericId]

/-- The class and its ancestors that can declare anything. -/
def lineage (w : World) (id : Nat) : List Nat := (w.order id).filter fun a => a != objectId && !markIds.contains a

/-- The stored names in order, each annotated one preceded by the names annotated before it that are not stored. -/
def orderFrom (hinted stored : List String) : (cursor : Nat) → List String → List String
  | cursor, [] => (hinted.drop cursor).filter fun n => !stored.contains n
  | cursor, name :: rest =>
    match hinted.findIdx? (· == name) with
    | none => name :: orderFrom hinted stored cursor rest
    | some place =>
      ((hinted.take place).drop cursor).filter (fun n => !stored.contains n) ++
        name :: orderFrom hinted stored (max cursor (place + 1)) rest

/-- The names that a class declares, in order. -/
def declarationOrder (c : Class) : List String := orderFrom c.hints.keys c.slots.keys 0 c.slots.keys

/-- Whether a name begins and ends with two underscores. -/
def isSpecialName (name : String) : Bool := name.startsWith "__" && name.endsWith "__"

/-- What one declaration adds to a manifest. -/
inductive Declared where
  | member (s : Signature)
  | field (f : Field)
  /-- Nothing, and the name stays open for an ancestor's declaration. -/
  | nothing

/-- The parameters of a callable that shows none. -/
def unknownParams : List Param := [{ name := "args", kind := .varPositional }, { name := "kwargs", kind := .varKeyword }]

/-- A parameter as a manifest records it. -/
def paramOf (w : World) (p : Parameter) : Param where
  name := p.name
  kind := p.kind
  default := p.default.map w.spell
  hint := p.hint.map Hint.spell

/-- The parameters of a method without its receiver. -/
def paramsOf (w : World) (kind : MemberKind) (f : Function) : List Param :=
  if !f.isReadable then unknownParams
  else
    let ps := match f.params with
      | p :: rest => if kind != MemberKind.static && p.isPositional then rest else f.params
      | [] => []
    ps.map w.paramOf

/-- The signature of a method. -/
def signatureOf (w : World) (owners : List String) (name : String) (kind : MemberKind) (f : Function) : Signature where
  name := name
  kind := kind
  visibility := nameVisibility name owners
  params := w.paramsOf kind f
  isAbstract := f.isAbstract
  isFinal := f.isFinal
  isAsync := f.isAsync && !f.isWrapped

/-- A stored value as a field; the reserved field is one in spite of its name. -/
def fieldOf (w : World) (owners : List String) (name : String) (hint : Option Hint) (v : Value) : Declared :=
  if name != reservedField && isSpecialName name then .nothing
  else
    .field
      { name := name
        default := some (w.spell v)
        hint := hint.map Hint.spell
        visibility := nameVisibility name owners
        isStatic := (hint.map Hint.isStatic).getD false
        isDescriptor := match v with
          | .property _ _ => true
          | _ => false }

/-- The written form of an object that answers in its own way when it is looked up. -/
def descriptorText : String := "<descriptor object>"

/-- What a class declares under a name. Whatever is stored under the reserved name, if no method, is a field. -/
def declared (w : World) (owners : List String) (c : Class) (name : String) : Declared :=
  let hint := c.hints.get? name
  match c.slots.get? name with
  | some (.routine kind f) =>
    match w.function? f with
    | some f => .member (w.signatureOf owners name kind f)
    | none => .nothing
  | some (.staticValue _) =>
    .member { name := name, kind := .static, visibility := nameVisibility name owners, params := unknownParams }
  | some (.value v) => w.fieldOf owners name hint v
  | some .descriptor =>
    if name == reservedField then
      .field
        { name := name
          default := some descriptorText
          hint := hint.map Hint.spell
          visibility := nameVisibility name owners
          isStatic := (hint.map Hint.isStatic).getD false }
    else .nothing
  | none =>
    match hint with
    | some h =>
      if isSpecialName name then .nothing
      else .field { name := name, hint := some h.spell, visibility := nameVisibility name owners, isStatic := h.isStatic }
    | none => .nothing

/-- Adds a declaration unless the name is known already. -/
def addDeclared (m : Manifest) (name : String) (d : Declared) : Manifest :=
  if (m.members.map Signature.name).contains name || (m.fields.map Field.name).contains name then m
  else
    match d with
    | .member s => { m with members := m.members ++ [s] }
    | .field f => { m with fields := m.fields ++ [f] }
    | .nothing => m

/-- Entries that only keep the books of abstract classes and protocols. -/
def bookkeepingNames : List String :=
  ["_abc_impl", "_is_protocol", "_is_runtime_protocol", "__annotate__", "__annotate_func__"]

/-- Adds all that a class declares. -/
def addClass (w : World) (owners : List String) (m : Manifest) (c : Class) : Manifest :=
  ((declarationOrder c).filter fun name => !bookkeepingNames.contains name).foldl (fun m name =>
    addDeclared m name (w.declared owners c name)) m

/-- The ancestors whose members may be abstract. -/
def capabilityAncestors (w : World) (id : Nat) : List Nat :=
  (w.order id).tail.filter fun a => a != objectId && !markIds.contains a && (w.cls a).hasAbstracts

/-- The members and fields of a class, its ancestors named apart. -/
def inspect (w : World) (id : Nat) (ref : SymbolRef) (capabilitySets : List SymbolRef) : Manifest :=
  let line := w.lineage id
  let owners := line.map fun a => (w.cls a).name
  line.foldl (fun m a => w.addClass owners m (w.cls a)) { ref, capabilitySets }

/-- The manifest of a class, every class being named by its own reference. -/
def manifestOf (w : World) (id : Nat) : Manifest :=
  w.inspect id (w.refOf id) ((w.capabilityAncestors id).map w.refOf)

end Amalgam.World
