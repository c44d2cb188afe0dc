import Amalgam.World.Creation

/-!
Classes and functions by description, and how the described objects enter a world.
-/

namespace Amalgam

/-- A base of a described class. -/
inductive Ancestor where
  /-- A described class, by its tag. -/
  | tagged (tag : String)
  | abc
  | protocol
  | generic
  deriving DecidableEq, Repr

/-- The parameter that stands for the receiver. -/
inductive Receiver where
  /-- The one that the kind of the method asks for. -/
  | usual
  | named (name : String)
  | missing
  deriving DecidableEq, Repr

/-- The effects and the result of a described body. -/
structure Action where
  isQuiet : Bool := false
  sets : List (String × Script) := []
  result : Script := .value .none
  deriving Inhabited

/-- A described method, its receiver apart. -/
structure Routine where
  kind : MemberKind := .ofInstance
  params : List Parameter := []
  receiver : Receiver := .usual
  isAbstract : Bool := false
  isFinal : Bool := false
  isAsync : Bool := false
  isWrapped : Bool := false
  action : Action := {}
  deriving Inhabited

/-- A described class, its body apart. -/
structure ClassHead where
  tag : String
  name : String
  home : String
  /-- The qualified name, where it is not the usual one. -/
  qualname : Option String := none
  bases : List Ancestor := []
  /-- Whether the class can be imported from its module. -/
  isBound : Bool := true
  deriving Inhabited

/-- One entry of the body of a described class. -/
inductive Entry where
  | routine (name : String) (routine : Routine)
  | field (name : String) (value : Value) (hint : Option Hint)
  | hinted (name : String) (hint : Hint)
  | computed (name : String) (isCached : Bool) (action : Action)
  | descriptor (name : String)
  /-- A static method that shows no parameters. -/
  | builtin (name : String)
  | staticValue (name : String) (value : Value)
  | inner (head : ClassHead) (body : List Entry)
  deriving Inhabited

/-- A described class. -/
structure ClassDescription where
  head : ClassHead
  body : List Entry
  deriving Inhabited

/-- A described combination function. -/
structure JoinDescription where
  tag : String
  home : String
  qualname : String
  how : Joining

/-- The name of the receiver of a method. -/
def Routine.receiverName (r : Routine) : Option String :=
  match r.receiver, r.kind with
  | .named name, _ => some name
  | .missing, _ => none
  | .usual, .ofInstance => some "self"
  | .usual, .ofClass => some "cls"
  | .usual, .static => none

/-- The parameters of a method with its receiver, which is positional-only if another one is. -/
def Routine.allParams (r : Routine) : List Parameter :=
  let kind : ParamKind := if r.params.any fun p => p.kind == .positionalOnly then .positionalOnly else .positionalOrKeyword
  r.receiverName.toList.map (fun name => ({ name, kind } : Parameter)) ++ r.params

/-- The body of an action. -/
def Action.body (a : Action) (label : String) (receiver : Option String) : Body :=
  .script label receiver a.isQuiet a.sets a.result

/-- The function of a described method. -/
def Routine.function (r : Routine) (head : ClassHead) (qualname name : String) : Function where
  name := name
  qualname := qualname ++ "." ++ name
  home := head.home
  params := r.allParams
  isAsync := r.isAsync
  isWrapped := r.isWrapped
  isAbstract := r.isAbstract
  isFinal := r.isFinal
  body := r.action.body (head.tag ++ "." ++ name) r.receiverName

/-- The function behind a computed attribute. -/
def Action.getter (a : Action) (head : ClassHead) (qualname name : String) : Function where
  name := name
  qualname := qualname ++ "." ++ name
  home := head.home
  params := [{ name := "self" }]
  body := a.body (head.tag ++ "." ++ name) (some "self")

namespace World

/-- The class of a tag, the last one described. -/
def tagged? (w : World) (tag : String) : Option Nat :=
  ((w.classes.toList.zipIdx.filter fun p => p.1.tag == some tag).getLast?).map Prod.snd

/-- The numbers of the bases. The mark of generic classes goes without saying where that of protocols is given. -/
def basesOf (w : World) (ancestors : List Ancestor) : List Nat :=
  (ancestors.filter fun a => !(a == .generic && ancestors.contains .protocol)).map fun
    | .tagged tag => (w.tagged? tag).getD objectId
    | .abc => abcId
    | .protocol => protocolId
    | .generic => genericId

/-- Stores a finished class where it can be imported. -/
def bindClass (head : ClassHead) (qualname : String) (id : Nat) : Act World Unit :=
  if head.isBound then putName head.home qualname (.cls id) else pure ()

mutual

/-- Reads the entries of a body into slots and hints. -/
def readBody (head : ClassHead) (qualname : String) : List Entry → Entries Slot → Entries Hint →
    Act World (Entries Slot × Entries Hint)
  | [], slots, hints => pure (slots, hints)
  | e :: rest, slots, hints => do
    let (name, slot, hint) ← readEntry head qualname e
    let slots := match slot with
      | some s => slots.put name s
      | none => slots
    let hints := match hint with
      | some h => hints.put name h
      | none => hints
    readBody head qualname rest slots hints

/-- Reads an entry: its name, what it stores, and its hint. -/
def readEntry (head : ClassHead) (qualname : String) : Entry → Act World (String × Option Slot × Option Hint)
  | .routine name r => do
    let f ← addFunction (r.function head qualname name)
    return (name, some (.routine r.kind f), none)
  | .field name v hint => pure (name, some (.value v), hint)
  | .hinted name hint => pure (name, none, some hint)
  | .computed name isCached a => do
    let f ← addFunction (a.getter head qualname name)
    return (name, some (.value (.property f isCached)), none)
  | .descriptor name => pure (name, some .descriptor, none)
  | .builtin name => pure (name, some (.routine .static greatestId), none)
  | .staticValue name v => pure (name, some (.staticValue v), none)
  | .inner inner body => do
    let innerName := inner.qualname.getD (qualname ++ "." ++ inner.name)
    let (slots, hints) ← readBody inner innerName body [] []
    let w ← get
    let id ← create
      { name := inner.name, qualname := innerName, home := inner.home, tag := some inner.tag, bases := w.basesOf inner.bases,
        slots, hints }
    bindClass inner innerName id
    return (inner.name, some (.value (.cls id)), none)

end

/-- Brings a described class into the world. -/
def describe (d : ClassDescription) : Act World Nat := do
  let qualname := d.head.qualname.getD d.head.name
  let (slots, hints) ← readBody d.head qualname d.body [] []
  let w ← get
  let id ← create
    { name := d.head.name, qualname, home := d.head.home, tag := some d.head.tag, bases := w.basesOf d.head.bases, slots,
      hints }
  bindClass d.head qualname id
  return id

/-- The last part of a qualified name. -/
def lastPart (qualname : String) : String := (Text.splitOnChar '.' qualname).getLast?.getD ""

/-- Brings a described combination function into the world. -/
def describeJoin (d : JoinDescription) : Act World Nat := do
  let f ← addFunction
    { name := lastPart d.qualname, qualname := d.qualname, home := d.home, params := [manyArgs "results"],
      body := .join ("fn:" ++ d.tag) d.how }
  putName d.home d.qualname (.function f)
  return f

/-- Brings described functions and then described classes into the world; the value tells the functions by their tags. -/
def describeAll (joins : List JoinDescription) (classes : List ClassDescription) : Act World (Entries Nat) := do
  let functions ← joins.mapM fun j => do return (j.tag, ← describeJoin j)
  let _ ← classes.mapM describe
  return Entries.ofList functions

end World

end Amalgam
