import Amalgam.Provider
import Amalgam.World.Import
import Amalgam.World.Inspection

/-!
The provider of live classes.

Classes are claimed under references: a class under its own, or under a numbered variant where another class has that
one. Manifests are read once and kept.
-/

namespace Amalgam

/-- What a provider of live classes remembers: the classes by path, and the manifests read so far. -/
structure Roster where
  classes : Entries Nat := []
  manifests : Entries Manifest := []

namespace Roster

/-- The n-th reference tried for a class: its own first, numbered variants after it. -/
def nthRef (r : SymbolRef) (n : Nat) : SymbolRef := if n ≤ 1 then r else r.variant n

/-- The reference under which a class is claimed. -/
def choose (c : Roster) (id : Nat) (r : SymbolRef) : SymbolRef :=
  let free := fun n =>
    match c.classes.get? (nthRef r n).path with
    | some other => other == id
    | none => true
  nthRef r (firstFree free c.classes.length 1)

/-- Roster a class. -/
def claim (w : World) (id : Nat) : Act Roster SymbolRef := do
  let c ← get
  let r := c.choose id (w.refOf id)
  set { c with classes := c.classes.put r.path id }
  return r

/-- The class of a reference: one claimed already, or one imported now. -/
def find (w : World) (r : SymbolRef) : Act Roster Nat := do
  let c ← get
  match c.classes.get? r.path with
  | some id => return id
  | none =>
    match ← Act.ofExcept (w.importSymbol r) with
    | .cls id =>
      set { c with classes := c.classes.put r.path id }
      return id
    | _ => Act.refuse (.notClass r.path)

/-- The manifest of a reference, read at the first question. -/
def manifest (w : World) (r : SymbolRef) : Act Roster Manifest := do
  match (← get).manifests.get? r.path with
  | some m => return m
  | none =>
    let id ← find w r
    let sets ← (w.capabilityAncestors id).mapM (claim w)
    let m := w.inspect id r sets
    modify fun c => { c with manifests := c.manifests.put r.path m }
    return m

/-- The reference of what a caller gives for a class. -/
def resolve (w : World) : TypeLike → Act Roster SymbolRef
  | .text path => do
    let r ← Provider.parse path
    let _ ← find w r
    return r
  | .ref r => do
    let _ ← find w r
    return r
  | .live id _ => claim w id
  | .other shown => Act.refuse (.classExpected shown)

end Roster

/-- Serves the classes of a world. -/
def Provider.live (w : World) : Provider Roster where
  resolve := Roster.resolve w
  manifest := Roster.manifest w
  binding r c := (c.classes.get? r.path).map Handle.cls

end Amalgam
