import Amalgam.Source.Layout
import Amalgam.Source.Private
import Amalgam.World.Creation
import Amalgam.World.Import

/-!
Executing generated code in a world.

The imports bind names of the module; the class is put together from its fields and methods in order, and bound in turn.
What cannot be compiled is refused before anything happens.
-/

namespace Amalgam

namespace Source

/-- A name that no code may bind. -/
def isBindable (name : String) : Bool := name != "__debug__"

/-- Whether no text occurs twice. -/
def allDistinct : List String → Bool
  | [] => true
  | t :: rest => !rest.contains t && allDistinct rest

/--
Whether the defaults of parameters can stand in their list. The list itself is one bracket around them. A tuple without
brackets cannot stand there, except that one of a single item at the very end reads as the item and a trailing comma.
-/
def hasSoundDefaults : List Formal → Bool
  | [] => true
  | f :: rest =>
    (match f.default with
    | some (.literal text) =>
      decide (Layout.nesting text < Literal.maxDepth) &&
        match Literal.openItems? text with
        | some [_] => rest.isEmpty && f.kind != .positionalOnly
        | some _ => false
        | none => true
    | _ => true) && hasSoundDefaults rest

/-- Whether a method can be compiled. -/
def Method.isSound (m : Method) : Bool :=
  isBindable m.name && m.formals.all (fun f => isBindable f.name) && allDistinct (m.formals.map Formal.name) &&
    hasSoundDefaults m.formals

/-- Whether a class can be compiled. -/
def Class.isSound (c : Class) : Bool :=
  isBindable c.name && c.fields.all (fun f => (Text.splitOnChar '.' f.name).all isBindable) &&
    c.methods.all fun m => (m.within c.name).isSound

end Source

namespace World

/-- The value of a literal in code. -/
def literalValue (text : String) : Value := (Literal.read? text).getD .none

/-- The hint that an annotation in code stands for. -/
def hintOf (text : String) : Hint :=
  match Literal.read? text with
  | some (.str t) => .text t
  | _ => .text text

/-- A name of a module. -/
def globalIn (home : Nat) (name : String) : Act World Value := do
  match (← get).global? home name with
  | some v => return v
  | none => fail .undefinedName

/-- The body of a class while it runs. -/
structure Scope where
  home : Nat
  owner : String
  slots : Entries Slot := []
  hints : Entries Hint := []

namespace Scope

/-- The value of a field. -/
def initValue (s : Scope) (path : List String) : Source.Init → Act World Value
  | .literal text => pure (literalValue text)
  | .copied source => do
    let v ← globalIn s.home (Text.privateName s.owner source)
    path.foldlM behaviour.attr v

/-- Runs the line of a field. -/
def runField (s : Scope) (f : Source.FieldLine) : Act World Scope := do
  let path := (Text.splitOnChar '.' f.name).map (Text.privateName s.owner)
  let value ← f.value.mapM (s.initValue path)
  match path with
  | [name] =>
    let slots ← match value with
      | some v => pure (s.slots.put name ((← get).slotOf v))
      | none => pure s.slots
    let hints := match f.hint with
      | some text => s.hints.put name (hintOf text)
      | none => s.hints
    return { s with slots, hints }
  | head :: rest =>
    let target ← match s.slots.get? head with
      | some slot => pure (throughClass objectId slot)
      | none => globalIn s.home head
    match value, rest.getLast? with
    | some v, some last =>
      let owner ← rest.dropLast.foldlM behaviour.attr target
      behaviour.setAttr owner last v
    | _, _ => pure ()
    return s
  | [] => return s

/-- The default of a parameter. -/
def defaultValue (s : Scope) : Source.Default → Act World Value
  | .literal text =>
    match Literal.openItems? text with
    | some [v] => pure v
    | _ => pure (literalValue text)
  | .readBack reader function param => do
    let r ← globalIn s.home reader
    let f ← globalIn s.home function.head
    let f ← function.attributes.foldlM behaviour.attr f
    behaviour.call r [f, .str param] []

/-- The parameter that a formal one becomes. -/
def parameter (s : Scope) (f : Source.Formal) : Act World Parameter := do
  let default ← f.default.mapM s.defaultValue
  return { name := f.name, kind := f.kind, default, hint := f.hint.map hintOf }

/-- What the marks of static and class methods make of a function; the body may have names of its own for them. -/
def decorate (s : Scope) (kind : MemberKind) (f : Nat) : Act World Slot := do
  let mark := match kind with
    | .ofInstance => none
    | .static => s.slots.get? "staticmethod"
    | .ofClass => s.slots.get? "classmethod"
  match mark with
  | none => return .routine kind f
  | some (.routine .ofClass _) => fail .type
  | some .descriptor => fail .type
  | some slot =>
    let v ← behaviour.call (throughClass objectId slot) [.function f] []
    return (← get).slotOf v

/-- Runs the definition of a method. -/
def runMethod (s : Scope) (m : Source.Method) : Act World Scope := do
  let m := m.within s.owner
  let params ← m.formals.mapM s.parameter
  let home := (((← get).modules[s.home]?).map Module.name).getD ""
  let f ← addFunction
    { name := m.name, qualname := s.owner ++ "." ++ m.name, home, params, isAsync := m.isAsync,
      body := .generated m.body s.home }
  let slot ← s.decorate m.kind f
  return { s with slots := s.slots.put m.name slot }

end Scope

/-- A class that a base stands for. -/
def baseOf (home : Nat) (name : String) : Act World Nat := do
  match ← globalIn home name with
  | .cls id => return id
  | _ => fail .type

/-- Binds a name in the module of a number. -/
def bindName (home : Nat) (name : String) (v : Value) : Act World Unit :=
  updateModule home fun m => { m with names := m.names.put name v }

/-- The module that a class says it is of: what its body stores of it comes before the module that the code is run in. -/
def Scope.homeOf (s : Scope) (moduleName : String) : String :=
  match s.slots.get? "__module__" with
  | some (.value (.str t)) => t
  | some _ => ""
  | none => moduleName

/-- Makes the class that a definition describes. -/
def defineClass (home : Nat) (c : Source.Class) : Act World Nat := do
  let bases ← c.bases.mapM (baseOf home)
  let scope : Scope := { home, owner := c.name }
  let scope ← c.fields.foldlM Scope.runField scope
  let scope ← c.methods.foldlM Scope.runMethod scope
  let moduleName := (((← get).modules[home]?).map Module.name).getD ""
  let home := scope.homeOf moduleName
  create { name := c.name, qualname := c.name, home, bases, slots := scope.slots, hints := scope.hints }

/-- Runs the definition of a class. -/
def runClass (home : Nat) (c : Source.Class) : Act World Unit := do
  let id ← defineClass home c
  bindName home c.name (.cls id)

/-- What an import binds. Code is read with its names composed, so a name that is not cannot be met. -/
def importedBy (w : World) (i : Source.Import) : Except Failure Value :=
  let qualname := if i.rest.isEmpty then i.head else i.head ++ "." ++ i.rest
  if !(Text.isComposed i.home && Text.isComposed qualname) then .error (.fault .importing)
  else
    (do
      let id ← w.findModule (i.home.length + 1) i.home
      w.findIn id qualname).mapError fun _ => .fault .importing

/-- Runs imports in a new module, each with the names in place that are bound before it. -/
def runImports (w : World) : Module → List Source.Import → Except Failure Module
  | m, [] => .ok m
  | m, i :: rest => do
    let v ← (w.withModule m).importedBy i
    runImports w { m with names := m.names.put i.boundAs v } rest

/-- What a file of code is run with. -/
structure Launch where
  file : String
  module : String
  /-- The class that the code is to define. -/
  name : String
  seed : Entries Value := []

/-- The module that code is run in, before its imports. -/
def Launch.start (l : Launch) : Module where
  name := l.module
  file := some l.file
  names := l.seed

/-- The class that a module has under a name once a class is defined in it. A name that is not composed is bound as another. -/
def found (c : Source.Class) (name : String) (names : Entries Value) : Except Failure Nat :=
  match names.get? name with
  | some (.cls id) => if Text.isComposed c.name || c.name != name then .ok id else .error (.fault .importing)
  | _ => .error (.fault .importing)

/-- Runs the definition of a class in a new module, and gives the class that the module then has under a name. -/
def runIn (m : Module) (name : String) (c : Source.Class) : Act World Nat := do
  let home ← load m
  runClass home c
  let names := (((← get).modules[home]?).map Module.names).getD []
  Act.ofExcept (found c name names)

/-- Runs code in a new module and gives the class that it defines; a module that fails is gone. -/
def execute (l : Launch) (c : Source.Code) : Act World Nat := do
  if !c.cls.isSound then fail .syntaxError
  tryCatch
    (do
      let m ← Act.ofExcept ((← get).runImports l.start c.imports)
      runIn m l.name c.cls)
    fun e => do
      unload l.module
      throw e

end World

end Amalgam
