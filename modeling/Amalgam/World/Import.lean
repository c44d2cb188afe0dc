import Amalgam.World

/-!
Importing modules, and symbols out of them.
-/

namespace Amalgam.World

/-- The module a name lies in, and nothing for a name without dots. -/
def parentName (name : String) : String := ((Text.splitLast '.' name).map Prod.fst).getD ""

/-- Looks a module up by name. A module that is not there is missed at the first of its parents that is missing. -/
def findModule (w : World) : (fuel : Nat) → String → Except ImportFault Nat
  | 0, name => .error (.noModule name)
  | fuel + 1, name =>
    match w.loaded.get? name with
    | some id => .ok id
    | none =>
      let parent := parentName name
      if parent.isEmpty then .error (.noModule name)
      else do
        let id ← findModule w fuel parent
        if ((w.modules[id]?).map Module.isPackage).getD false then .error (.noModule name)
        else .error (.notPackage name parent)

/-- How a failed look-up names the owner of an attribute. -/
def ownerText (w : World) (v : Value) : String :=
  match v with
  | .cls id => s!"type object '{(w.cls id).name}'"
  | .bound _ _ => "'function' object"
  | .function id => if id == greatestId || id == isOfId then "'builtin_function_or_method' object" else "'function' object"
  | v => s!"'{w.typeName v}' object"

/-- Follows attributes from a value. -/
def follow (w : World) : Value → List String → Except ImportFault Value
  | v, [] => .ok v
  | v, name :: rest =>
    match w.plainAttribute? v name with
    | some x => follow w x rest
    | none => .error (.noAttribute (w.ownerText v) name)

/-- Looks a qualified name up in a module. -/
def findIn (w : World) (id : Nat) (qualname : String) : Except ImportFault Value :=
  match w.modules[id]?, Text.splitOnChar '.' qualname with
  | some m, head :: rest =>
    match m.names.get? head with
    | some v => follow w v rest
    | none => .error (.noAttribute s!"module '{m.name}'" head)
  | _, _ => .error (.noModule "")

/-- Imports what a reference stands for. -/
def importSymbol (w : World) (r : SymbolRef) : Except Failure Value :=
  if !r.importable then .error (.refusal (.localSymbol r.path))
  else if r.home.isEmpty then .error (.fault .value)
  else if r.home.startsWith "." then .error (.fault .type)
  else
    (do
      let id ← w.findModule (r.home.length + 1) r.home
      w.findIn id r.qualname).mapError fun fault => .refusal (.cannotImport r.path fault)

/-- A world with a new module under its name, in the place of an older one. -/
def withModule (w : World) (m : Module) : World :=
  { w with modules := w.modules.push m, loaded := w.loaded.put m.name w.modules.size }

/-- Stores a module under its name. -/
def load (m : Module) : Act World Nat := do
  let w ← get
  set (w.withModule m)
  return w.modules.size

/-- A world where no module can be imported by a name. -/
def withoutModule (w : World) (name : String) : World := { w with loaded := w.loaded.erase name }

/-- Forgets the module of a name. -/
def unload (name : String) : Act World Unit := modify (World.withoutModule · name)

end Amalgam.World
