import Amalgam.Combination
import Amalgam.Provider
import Amalgam.Source
import Amalgam.Value.Spelling
import Amalgam.World.Binding
import Amalgam.World.Linearization
import Amalgam.World.Script

/-!
The world of live objects: classes, functions, instances and modules.

Objects are known by their numbers; nothing is ever forgotten, so a number stays good. What the bodies of methods report
of their calls is kept as a trace.
-/

namespace Amalgam

/-- A combination function described by what it does with the results. -/
inductive Joining where
  | list
  /-- Puts texts together; what is no text counts as a question mark. -/
  | cat
  | count
  | first
  deriving DecidableEq, Repr

/-- What a function does. -/
inductive Body where
  /-- Reports the call unless quiet, sets attributes of the receiver, and returns the value of a script. -/
  | script (label : String) (receiver : Option String) (isQuiet : Bool) (sets : List (String × Script)) (result : Script)
  /-- Runs generated statements; names that are no locals are those of a module. -/
  | generated (stmts : List Source.Stmt) (home : Nat)
  /-- Reports its results and joins them. -/
  | join (label : String) (how : Joining)
  | combine (how : Combination)
  /-- Reads back the default of a parameter. -/
  | defaultOf
  /-- Tests whether a value is of a class. -/
  | isOf
  /-- The greatest of its arguments. -/
  | greatest
  /-- Does nothing. -/
  | nothing
  /-- Makes an instance of a protocol's subclass, in place of a constructor. -/
  | protocolInit

/-- A function. -/
structure Function where
  name : String
  qualname : String
  home : String
  params : List Parameter := []
  isAsync : Bool := false
  /-- Called through a wrapper that takes all arguments; only its parameters show. -/
  isWrapped : Bool := false
  isAbstract : Bool := false
  isFinal : Bool := false
  /-- Whether its parameters can be learnt. -/
  isReadable : Bool := true
  body : Body

/-- What a class stores under a name. -/
inductive Slot where
  | routine (kind : MemberKind) (function : Nat)
  /-- A value in the place of a static method. -/
  | staticValue (v : Value)
  | value (v : Value)
  /-- An object that answers in its own way when it is looked up. -/
  | descriptor

/-- A class. -/
structure Class where
  name : String
  qualname : String
  home : String
  /-- The name under which the class was described; generated and basic classes have none. -/
  tag : Option String := none
  bases : List Nat := []
  order : List Nat := []
  slots : Entries Slot := []
  hints : Entries Hint := []
  /-- Whether the class may have abstract members. -/
  hasAbstracts : Bool := false
  isProtocol : Bool := false
  /-- The abstract members left. -/
  abstracts : List String := []

/-- An object made from a class. -/
structure Instance where
  cls : Nat
  attributes : Entries Value := []

/-- A module: its file and its names. -/
structure Module where
  name : String
  file : Option String := none
  isPackage : Bool := false
  names : Entries Value := []

/-- A call that was reported: who was called, and the arguments as they are shown. -/
structure Event where
  label : String
  arguments : List (String × String)
  deriving DecidableEq, Repr

/-- The live objects, the modules by name, and the trace. -/
structure World where
  classes : Array Class := #[]
  functions : Array Function := #[]
  instances : Array Instance := #[]
  modules : Array Module := #[]
  /-- The modules that can be imported. -/
  loaded : Entries Nat := []
  trace : List Event := []

namespace World

/-- The numbers of the basic classes. -/
def objectId : Nat := 0

def abcId : Nat := 1

def protocolId : Nat := 2

def genericId : Nat := 3

def shortCircuitId : Nat := 4

def replaceId : Nat := 5

/-- The numbers of the functions that come with the library. -/
def executeId : Nat := 0

def lastId : Nat := 1

def lastDecisionId : Nat := 2

def parameterDefaultId : Nat := 3

def isOfId : Nat := 4

def greatestId : Nat := 5

def nothingId : Nat := 6

def protocolInitId : Nat := 7

def objectInitId : Nat := 8

/-- The class that marks a default as absent. -/
def absentId : Nat := 6

/-- A class that no number stands for. -/
def noClass : Class := { name := "", qualname := "", home := "" }

def cls (w : World) (id : Nat) : Class := w.classes[id]?.getD noClass

def function? (w : World) (id : Nat) : Option Function := w.functions[id]?

def order (w : World) (id : Nat) : List Nat := (w.cls id).order

/-- What a class finds under a name: the first of its order that stores something counts. -/
def slot? (w : World) (id : Nat) (name : String) : Option Slot :=
  (w.order id).findSome? fun c => (w.cls c).slots.get? name

/-- The class of an instance. -/
def classOf? (w : World) (inst : Nat) : Option Nat := (w.instances[inst]?).map Instance.cls

def isSubclass (w : World) (a b : Nat) : Bool := (w.order a).contains b

/-- The reference a class has of itself. -/
def refOf (w : World) (id : Nat) : SymbolRef := ⟨(w.cls id).home, (w.cls id).qualname⟩

def functionRef (w : World) (id : Nat) : SymbolRef :=
  match w.function? id with
  | some f => ⟨f.home, f.qualname⟩
  | none => ⟨"", ""⟩

/-- The written form of a class. -/
def spellClass (w : World) (id : Nat) : String := "<class '" ++ (w.cls id).home ++ "." ++ (w.cls id).qualname ++ "'>"

/-- The written forms of objects. -/
def speller (w : World) : Value.Speller
  | .cls id => some (w.spellClass id)
  | .inst id =>
    match w.classOf? id with
    | some c => some ("<" ++ (w.cls c).home ++ "." ++ (w.cls c).qualname ++ " object>")
    | none => none
  | .function id => (w.function? id).map fun f => "<function " ++ f.qualname ++ ">"
  | .bound id _ => (w.function? id).map fun f => "<bound method " ++ f.qualname ++ ">"
  | .property _ cached => some (if cached then "<functools.cached_property object>" else "<property object>")
  | .pending id _ => (w.function? id).map fun f => "<coroutine object " ++ f.qualname ++ ">"
  | _ => none

/-- The written form of a value, or a note that it has none. -/
def spell (w : World) (v : Value) : String := v.spellSafely w.speller

/-- The name of the class of a value. -/
def typeName (w : World) (v : Value) : String :=
  match v with
  | .inst id => ((w.classOf? id).map fun c => (w.cls c).name).getD "object"
  | v => v.className

/-- How objects are shown in answers. -/
def shower (w : World) : Value.Speller
  | .cls id => some ("<class " ++ (w.cls id).name ++ ">")
  | .inst id =>
    match w.classOf? id with
    | some c =>
      some (if (w.slot? c "__call__").isSome then "<function>" else "<" ++ (w.cls c).name ++ " instance>")
    | none => none
  | .function _ => some "<function>"
  | .bound _ _ => some "<function>"
  | .property _ _ => some "<property>"
  | .broken => some "<broken>"
  | .pending _ _ => some "<coroutine instance>"
  | _ => none

/-- How a value is shown in answers. -/
def shown (w : World) (v : Value) : String := v.spellSafely w.shower

/-- Reports a call. -/
def report (e : Event) : Act World Unit := modify fun w => { w with trace := w.trace ++ [e] }

/-- Fails as the language does. -/
def fail {α : Type} (kind : Fault) : Act World α := throw (.fault kind)

/-- Adds a function. -/
def addFunction (f : Function) : Act World Nat := do
  let id := (← get).functions.size
  modify fun w => { w with functions := w.functions.push f }
  return id

/-- Changes a class. -/
def updateClass (id : Nat) (change : Class → Class) : Act World Unit :=
  modify fun w => { w with classes := w.classes.modify id change }

/-- Changes a module. -/
def updateModule (id : Nat) (change : Module → Module) : Act World Unit :=
  modify fun w => { w with modules := w.modules.modify id change }

/-- Stores something under a name of a class. -/
def putSlot (id : Nat) (name : String) (slot : Slot) : Act World Unit :=
  updateClass id fun c => { c with slots := c.slots.put name slot }

/-- The module of a name, made if it is not there. -/
def ensureModule (name : String) : Act World Nat := do
  let w ← get
  match w.loaded.get? name with
  | some id => return id
  | none =>
    let id := w.modules.size
    set { w with modules := w.modules.push { name := name }, loaded := w.loaded.put name id }
    return id

/-- Stores a value under a name of a module. -/
def putName (module : String) (name : String) (v : Value) : Act World Unit := do
  let id ← ensureModule module
  updateModule id fun m => { m with names := m.names.put name v }

/-- What a class stores is looked up through the class itself. -/
def throughClass (id : Nat) : Slot → Value
  | .routine .ofClass f => .bound f (.cls id)
  | .routine _ f => .function f
  | .staticValue v => v
  | .value v => v
  | .descriptor => .str "descriptor"

/-- The attributes that every class has. -/
def commonAttribute? (w : World) (id : Nat) (name : String) : Option Value :=
  match name with
  | "__name__" => some (.str (w.cls id).name)
  | "__qualname__" => some (.str (w.cls id).qualname)
  | "__module__" => some (.str (w.cls id).home)
  | "__doc__" => some .none
  | "__mro__" => some (.tuple ((w.order id).map .cls))
  | "__bases__" => some (.tuple ((w.cls id).bases.map .cls))
  | _ => none

/-- An attribute of a class. -/
def classAttribute? (w : World) (id : Nat) (name : String) : Option Value :=
  match w.slot? id name with
  | some slot => some (throughClass id slot)
  | none => w.commonAttribute? id name

/-- An attribute of a value that needs no code to be run; instances are looked up elsewhere. -/
def plainAttribute? (w : World) (v : Value) (name : String) : Option Value :=
  match v with
  | .cls id => w.classAttribute? id name
  | .verdict _ x => if name == "value" then some x else none
  | .bound f r =>
    if name == "__func__" then some (.function f)
    else if name == "__self__" then some r
    else none
  | .function id =>
    match w.function? id, name with
    | some f, "__name__" => some (.str f.name)
    | some f, "__qualname__" => some (.str f.qualname)
    | some f, "__module__" => some (.str f.home)
    | _, _ => none
  | _ => none

end World

end Amalgam
