import Amalgam.Source.Run
import Amalgam.Value.Order
import Amalgam.World

/-!
What live objects do when they are asked for attributes, called or awaited.

Bodies call each other without end, so behaviour is built in levels: at each level a body may rely on the level below, and
at the bottom nothing goes on any more. `behaviour` has as many levels as calls may nest.
-/

namespace Amalgam

/-- How objects answer. -/
structure Behaviour where
  attr : Value → String → Act World Value
  call : Value → List Value → Entries Value → Act World Value
  await : Value → Act World Value

namespace World

/-- The names that every module knows. -/
def builtinName? : String → Option Value
  | "isinstance" => some (.function isOfId)
  | "object" => some (.cls objectId)
  | "max" => some (.function greatestId)
  | _ => none

/-- What a name stands for in a module. -/
def global? (w : World) (home : Nat) (name : String) : Option Value :=
  if Text.isComposed name then ((w.modules[home]?).bind fun m => m.names.get? name) <|> builtinName? name else none

/-- Whether a value is an instance of a class. -/
def isOf (w : World) (v : Value) (id : Nat) : Bool :=
  match v with
  | .inst i => ((w.classOf? i).map fun c => w.isSubclass c id).getD false
  | .verdict .shortCircuit _ => id == shortCircuitId || id == objectId
  | .verdict .replace _ => id == replaceId || id == objectId
  | _ => id == objectId

/-- The parameters that a callable shows, or why it shows none. -/
def parametersOf (w : World) : Value → Except Fault (List Parameter)
  | .function id =>
    match w.function? id with
    | some f => if f.isReadable then .ok f.params else .error .value
    | none => .error .type
  | .bound id _ =>
    match w.function? id with
    | some f =>
      match f.params with
      | p :: rest => if !f.isReadable then .error .value else if p.isPositional then .ok rest
        else if p.kind == .varPositional then .ok f.params else .error .value
      | [] => .error .value
    | none => .error .type
  | _ => .error .type

/-- The default of a parameter of a function; a parameter without one has the mark of absence. -/
def defaultOf (w : World) (function : Value) (name : Value) : Except Fault Value := do
  let ps ← w.parametersOf function
  match ps.find? fun p => name.same (.str p.name) with
  | some p => .ok (p.default.getD (.cls absentId))
  | none => .error .key

/-- What a slot holds when a value is stored as it is: a function becomes a method. -/
def slotOf (w : World) (v : Value) : Slot :=
  match v with
  | .function id => if ((w.function? id).map Function.isReadable).getD true then .routine .ofInstance id else .value v
  | v => .value v

/-- The items that a value goes through. -/
def itemsOf? : Value → Option (List Value)
  | .list vs => some vs
  | .tuple vs => some vs
  | .set vs => some vs
  | .dict es => some (es.map Prod.fst)
  | .str s => some (s.toList.map fun c => .str (String.ofList [c]))
  | .bytes bs => some (bs.map fun b => .int (Int.ofNat b))
  | _ => none

/-- The greatest of some arguments, or of the items of a single one. -/
def greatest (args : List Value) : Except Fault Value :=
  let pick := fun (vs : List Value) =>
    match vs with
    | [] => .error .value
    | v :: rest =>
      match Value.greatestFrom? v rest with
      | some best => .ok best
      | none => .error .type
  match args with
  | [] => .error .type
  | [v] =>
    match itemsOf? v with
    | some vs => pick vs
    | none => .error .type
  | vs => pick vs

/-- An outcome that is already known. -/
def settle {α : Type} : Except Fault α → Act World α
  | .ok a => pure a
  | .error k => fail k

end World

/-- What a described combination function makes of its results. -/
def Joining.apply (how : Joining) (results : List Value) : Except Fault Value :=
  match how with
  | .list => .ok (.list results)
  | .cat => .ok (.str (String.join (results.map fun
    | .str s => s
    | _ => "?")))
  | .count => .ok (.int results.length)
  | .first =>
    match results with
    | v :: _ => .ok v
    | [] => .error .index

namespace Behaviour

open World

/-- Nothing goes on. -/
def stuck : Behaviour where
  attr _ _ := fail .recursion
  call _ _ _ := fail .recursion
  await _ := fail .recursion

/-- The surroundings of a body; the names of a generated one are those of its module. -/
def surroundings (b : Behaviour) (home : Option Nat) : Surroundings (Act World) where
  lookUp name := do
    let w ← get
    match home.bind fun id => w.global? id name with
    | some v => return v
    | none => fail .undefinedName
  attr := b.attr
  call := b.call
  await := b.await
  shown v := return (← get).shown v
  className
    | .cls id => return ((← get).cls id).name
    | v => return (← get).typeName v
  raise text := throw (.raised text)
  unbound := fail .undefinedName
  unassigned := fail .unassigned
  misfit := fail .type

/-- Stores an attribute of a class; what a class is called must be a text. -/
def setOfClass (id : Nat) (name : String) (v : Value) : Act World Unit := do
  match name, v with
  | "__name__", .str t => updateClass id fun c => { c with name := t }
  | "__qualname__", .str t => updateClass id fun c => { c with qualname := t }
  | "__module__", .str t => updateClass id fun c => { c with home := t }
  | "__name__", _ => fail .type
  | "__qualname__", _ => fail .type
  | name, v => putSlot id name ((← get).slotOf v)

/-- Stores an attribute of an object. -/
def setAttr (b : Behaviour) (target : Value) (name : String) (v : Value) : Act World Unit := do
  let w ← get
  match target with
  | .cls id => setOfClass id name v
  | .inst id =>
    let c := (w.classOf? id).getD objectId
    match w.slot? c "__setattr__", w.slot? c name with
    | some slot, _ =>
      match slot with
      | .routine .ofInstance f => let _ ← b.call (.bound f target) [.str name, v] []
      | slot => let _ ← b.call (throughClass c slot) [.str name, v] []
    | none, some (.value (.property _ false)) => fail .attribute
    | none, _ =>
      modify fun w =>
        { w with instances := w.instances.modify id fun i => { i with attributes := i.attributes.put name v } }
  | _ => fail .attribute

/-- Stores attributes one after another, each the value of a script. -/
def setAttrs (b : Behaviour) (s : Surroundings (Act World)) (receiver : Value) (env : Entries Value) :
    List (String × Script) → Act World Unit
  | [] => pure ()
  | (name, e) :: rest => do
    let v ← Script.eval s receiver env e
    b.setAttr receiver name v
    setAttrs b s receiver env rest

/-- The values of the only parameter, one that takes any number of arguments. -/
def resultsIn (env : Entries Value) : List Value :=
  match env with
  | (_, .tuple vs) :: _ => vs
  | _ => []

/-- Makes an instance ready in place of a constructor: the first true constructor of its class takes over for good. -/
def constructProtocol (b : Behaviour) (env : Entries Value) : Act World Value := do
  let w ← get
  match env with
  | (_, .inst id) :: rest =>
    let c := (w.classOf? id).getD objectId
    if (w.cls c).isProtocol then fail .type
    match w.slot? c "__init__" with
    | some (.routine .ofInstance f) =>
      if f != protocolInitId then return .none
      let found := (w.order c).findSome? fun a => match (w.cls a).slots.get? "__init__" with
        | some (.routine .ofInstance g) => if g == protocolInitId then none else some (Slot.routine .ofInstance g)
        | slot => slot
      let slot := found.getD (.value (.function objectInitId))
      putSlot c "__init__" slot
      let vs := match rest with
        | (_, .tuple vs) :: _ => vs
        | _ => []
      let ks : Entries Value := match rest with
        | [_, (_, .dict es)] => es.filterMap fun e => match e.1 with
          | .str k => some (k, e.2)
          | _ => none
        | _ => []
      let f ← b.attr (.inst id) "__init__"
      b.call f vs ks
    | _ => return .none
  | _ => fail .type

/-- Runs the body of a function over its bound parameters. -/
def runBody (b : Behaviour) (f : Function) (env : Entries Value) : Act World Value := do
  match f.body with
  | .script label receiver isQuiet sets result =>
    let w ← get
    let self := (receiver.bind env.get?).getD .none
    let shown := (env.filter fun e => receiver != some e.1).map fun e => (e.1, w.shown e.2)
    if !isQuiet then report ⟨label, shown⟩
    let s := b.surroundings none
    b.setAttrs s self env sets
    Script.eval s self env result
  | .generated stmts home => Source.runBody (b.surroundings (some home)) env stmts
  | .join label how =>
    let w ← get
    let results := resultsIn env
    report ⟨label, [("results", w.shown (.list results))]⟩
    settle (how.apply results)
  | .combine how => return how.combine (resultsIn env)
  | .defaultOf => settle ((← get).defaultOf ((env.get? "function").getD .none) ((env.get? "name").getD .none))
  | .isOf =>
    match env with
    | [(_, v), (_, .cls id)] => return .bool ((← get).isOf v id)
    | _ => fail .type
  | .greatest =>
    match env with
    | [(_, .tuple vs), (_, .dict [])] => settle (World.greatest vs)
    | _ => fail .type
  | .nothing => return .none
  | .protocolInit => b.constructProtocol env

/-- Calls a function: binds the arguments and runs the body, unless it waits to be awaited. -/
def apply (b : Behaviour) (id : Nat) (args : List Value) (keywords : Entries Value) : Act World Value := do
  match (← get).function? id with
  | none => fail .type
  | some f =>
    match Parameter.bind? f.params args keywords with
    | none => fail .type
    | some env => if f.isAsync then return .pending id env else b.runBody f env

/-- Calls what a class stores under a name, for an instance. -/
def applySlot (b : Behaviour) (cls : Nat) (receiver : Value) (slot : Slot) (args : List Value)
    (keywords : Entries Value) : Act World Value :=
  match slot with
  | .routine .ofInstance f => b.apply f (receiver :: args) keywords
  | .routine .ofClass f => b.apply f (.cls cls :: args) keywords
  | .routine .static f => b.apply f args keywords
  | .staticValue v => b.call v args keywords
  | .value v => b.call v args keywords
  | .descriptor => fail .type

/-- Makes an instance and runs its constructor. -/
def construct (b : Behaviour) (id : Nat) (args : List Value) (keywords : Entries Value) : Act World Value := do
  let w ← get
  if !(w.cls id).abstracts.isEmpty then fail .type
  let init := w.slot? id "__init__"
  if init.isNone && !(args.isEmpty && keywords.isEmpty) then fail .type
  let v := Value.inst w.instances.size
  modify fun w => { w with instances := w.instances.push { cls := id } }
  match init with
  | none => return v
  | some slot =>
    match ← b.applySlot id v slot args keywords with
    | .none => return v
    | _ => fail .type

/-- Calls a class. -/
def instantiate (b : Behaviour) (id : Nat) (args : List Value) (keywords : Entries Value) : Act World Value := do
  let w ← get
  let verdict := fun (kind : Verdict) =>
    match Parameter.bind? [{ name := "value", default := some .none }] args keywords with
    | some [(_, v)] => pure (.verdict kind v)
    | _ => fail .type
  if id == shortCircuitId then verdict .shortCircuit
  else if id == replaceId then verdict .replace
  else
    match w.slot? id "__new__" with
    | none => b.construct id args keywords
    | some slot =>
      match ← b.applySlot id (.cls id) slot (.cls id :: args) keywords with
      | .inst i =>
        let w ← get
        let c := (w.classOf? i).getD objectId
        match w.isSubclass c id, w.slot? c "__init__" with
        | true, some init =>
          match ← b.applySlot c (.inst i) init args keywords with
          | .none => return .inst i
          | _ => fail .type
        | _, _ => return .inst i
      | v => return v

/-- What an instance finds in a slot of its class. -/
def throughInstance (b : Behaviour) (id cls : Nat) (name : String) (slot : Slot) : Act World Value := do
  match slot with
  | .routine .ofInstance f => return .bound f (.inst id)
  | .value (.property getter true) =>
    let v ← b.apply getter [.inst id] []
    modify fun w =>
      { w with instances := w.instances.modify id fun i => { i with attributes := i.attributes.put name v } }
    return v
  | .value (.property getter false) => b.apply getter [.inst id] []
  | slot => return throughClass cls slot

/-- An attribute of an instance: a computed one of its class, its own, one of its class. -/
def ownAttr (b : Behaviour) (id : Nat) (name : String) : Act World Value := do
  let w ← get
  let c := (w.classOf? id).getD objectId
  match w.slot? c name, ((w.instances[id]?).bind fun i => i.attributes.get? name) with
  | some (.value (.property getter false)), _ => b.apply getter [.inst id] []
  | _, some v => return v
  | some slot, none => b.throughInstance id c name slot
  | none, none =>
    match name with
    | "__class__" => return .cls c
    | "__module__" => return .str (w.cls c).home
    | "__doc__" => return .none
    | _ => fail .attribute

/-- An attribute of an instance; its class may answer for one that is missing, or that cannot be computed for such. -/
def attrOfInstance (b : Behaviour) (id : Nat) (name : String) : Act World Value :=
  tryCatch (b.ownAttr id name) fun e => do
    let w ← get
    let c := (w.classOf? id).getD objectId
    match e, w.slot? c "__getattr__" with
    | .fault .attribute, some slot => b.applySlot c (.inst id) slot [.str name] []
    | _, _ => throw e

/-- The behaviour one level up. -/
def next (b : Behaviour) : Behaviour where
  attr v name := do
    match v with
    | .inst id => b.attrOfInstance id name
    | v =>
      match (← get).plainAttribute? v name with
      | some x => return x
      | none => fail .attribute
  call v args keywords := do
    match v with
    | .function id => b.apply id args keywords
    | .bound id receiver => b.apply id (receiver :: args) keywords
    | .cls id => b.instantiate id args keywords
    | .inst id =>
      let w ← get
      let c := (w.classOf? id).getD objectId
      match w.slot? c "__call__" with
      | some slot => b.applySlot c (.inst id) slot args keywords
      | none => fail .type
    | _ => fail .type
  await v := do
    match v with
    | .pending id env =>
      match (← get).function? id with
      | some f => b.runBody f env
      | none => fail .type
    | _ => fail .type

/-- The behaviour with some number of levels. -/
def levels : Nat → Behaviour
  | 0 => stuck
  | n + 1 => (levels n).next

/-- Calls an object, and awaits the call if it waits for that. -/
def run (b : Behaviour) (f : Value) (args : List Value) (keywords : Entries Value) : Act World Value := do
  match ← b.call f args keywords with
  | .pending id env => b.await (.pending id env)
  | v => return v

/-- How deep calls may nest. -/
def depth : Nat := 300

end Behaviour

/-- Whether the first class of an order that judges its extensions is a protocol, which tells nobody who keeps it. -/
def World.isReserved (w : World) (id : Nat) : Bool :=
  match (w.order id).find? fun c => (w.cls c).slots.has "__subclasshook__" with
  | some c => (w.cls c).isProtocol && (w.cls c).bases.contains World.protocolId
  | none => false

/-- Whether one class extends another. -/
def World.checkSubclass (a b : Value) : Act World Bool := do
  let w ← get
  match a, b with
  | .cls a, .cls b => if w.isReserved b then World.fail .type else return w.isSubclass a b
  | _, _ => World.fail .type

/-- How live objects answer. -/
def behaviour : Behaviour := Behaviour.levels Behaviour.depth

end Amalgam
