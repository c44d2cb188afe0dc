import Amalgam.World.Behaviour
import Amalgam.World.Fresh

/-!
How a class comes into being.

The order of its ancestors is found, the hooks of its ancestors are told of it, and the abstract members left to it are
collected.
-/

namespace Amalgam.World

/-- What a class is made of. -/
structure Draft where
  name : String
  qualname : String
  home : String
  tag : Option String := none
  bases : List Nat := []
  slots : Entries Slot := []
  hints : Entries Hint := []

/-- The kind that a plain method gets from its name. -/
def impliedKind (name : String) (slot : Slot) : Slot :=
  match slot with
  | .routine .ofInstance f =>
    if name == "__new__" then .routine .static f
    else if name == "__init_subclass__" || name == "__class_getitem__" then .routine .ofClass f
    else slot
  | slot => slot

/-- Whether what is stored is an abstract member. -/
def isAbstractSlot (w : World) : Slot → Bool
  | .routine _ f => ((w.function? f).map Function.isAbstract).getD false
  | _ => false

/-- The abstract members left to a class. -/
def abstractsOf (w : World) (id : Nat) : List String :=
  let own := ((w.cls id).slots.filter fun e => w.isAbstractSlot e.2).map Prod.fst
  let inherited := ((w.cls id).bases.flatMap fun b => (w.cls b).abstracts).filter fun name =>
    match w.slot? id name with
    | some slot => w.isAbstractSlot slot
    | none => false
  own ++ inherited.filter fun name => !own.contains name

/-- Whether a class repeats a base. -/
def hasRepeats : List Nat → Bool
  | [] => false
  | b :: rest => rest.contains b || hasRepeats rest

/-- Whether a protocol may extend a base. -/
def isProtocolBase (w : World) (id : Nat) : Bool :=
  id == objectId || id == genericId || ((w.order id).contains genericId && (w.cls id).isProtocol)

/-- Makes a class that extends the protocol mark a protocol, or an implementation of one. -/
def enterProtocol (id : Nat) : Act World Unit := do
  let w ← get
  let c := w.cls id
  let isProtocol := c.bases.contains protocolId
  updateClass id fun c => { c with isProtocol }
  if !c.slots.has "__subclasshook__" then putSlot id "__subclasshook__" (.routine .ofInstance nothingId)
  if isProtocol then
    if !c.bases.all w.isProtocolBase then fail .type
    if (w.slot? id "__init__").isNone then putSlot id "__init__" (.routine .ofInstance protocolInitId)

/-- Tells the ancestors of a new class, one after another up to the first that was described with a hook of its own. -/
def announce (id : Nat) : List Nat → Act World Unit
  | [] => pure ()
  | a :: rest => do
    let w ← get
    match (w.cls a).slots.get? "__init_subclass__" with
    | some slot =>
      let _ ← behaviour.call (throughClass id slot) [] []
    | none =>
      announce id rest
      if a == protocolId then enterProtocol id

/-- The bases of the class; without any it extends the basic class of all objects. -/
def Draft.parents (d : Draft) : List Nat := if d.bases.isEmpty then [objectId] else d.bases

/-- The class that a draft becomes, given the order of its ancestors. -/
def Draft.toClass (d : Draft) (w : World) (order : List Nat) : Class where
  name := d.name
  qualname := d.qualname
  home := d.home
  tag := d.tag
  bases := d.parents
  order := order
  slots := d.slots.map fun e => (e.1, impliedKind e.1 e.2)
  hints := d.hints
  hasAbstracts := order.tail.any fun a => (w.cls a).hasAbstracts
  isProtocol := ((order.tail.find? fun a => (w.order a).contains protocolId).map fun a => (w.cls a).isProtocol).getD false

/-- Tells the ancestors of a new class of it, and collects its abstract members. -/
def complete (id : Nat) (c : Class) : Act World Unit := do
  announce id c.order.tail
  if c.hasAbstracts then modify fun w => { w with classes := w.classes.modify id fun c =>
    { c with abstracts := abstractsOf w id } }

/-- Makes a class. -/
def create (d : Draft) : Act World Nat := do
  let w ← get
  if hasRepeats d.bases then fail .type
  let id := w.classes.size
  match Linearization.order? id d.parents w.order with
  | none => fail .type
  | some order =>
    let c := d.toClass w order
    modify fun w => { w with classes := w.classes.push c }
    complete id c
    return id

end Amalgam.World
