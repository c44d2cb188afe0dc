import Amalgam.Blueprint.Build
import Amalgam.Settings
import Amalgam.Source.Compile
import Amalgam.Value.OfDocument
import Amalgam.World.Execution
import Amalgam.World.Live

/-!
Sessions: composites in a running program.

A blueprint is activated by running its code in a fresh module, or by way of an artifact: a file that holds the code and
is run again later. The session remembers which names are taken, and the lines of code that no file holds.
-/

namespace Amalgam

/-- A running program: its objects, its files, and the composites activated in it. -/
structure Session where
  world : World
  /-- The composites activated, by name. -/
  composites : Entries Nat := []
  /-- The code run without a file, by the name that stands for its file. -/
  lines : Entries String := []
  files : Files
  /-- The names bound for the caller. -/
  bound : Entries Nat := []
  notices : List Notice := []

/-- Where a plan learns of its contributors: from the live classes, or from given manifests. -/
inductive Origin where
  | live
  | manifests (ms : List Manifest)

namespace Session

/-- The live objects that plans rely on. -/
def defaults : Blueprint.Defaults where
  execute := .function World.executeId
  lastDecision := .function World.lastDecisionId
  shortCircuit := .cls World.shortCircuitId
  replace := .cls World.replaceId
  parameterDefault := .function World.parameterDefaultId

/-- Leaves a notice. -/
def note (n : Notice) : Act Session Unit := modify fun p => { p with notices := p.notices ++ [n] }

/-- Does something in the world. -/
def inWorld {α : Type} (act : Act World α) : Act Session α :=
  Act.within Session.world (fun w p => { p with world := w }) act

/-- Plans with a provider and keeps the notices. -/
def planWith {σ : Type} (p : Provider σ) (s : σ) (strict : Bool) (q : Request) : Act Session Blueprint := do
  let (r, t) := (Blueprint.build p defaults strict q).runFrom { provider := s }
  modify fun p => { p with notices := p.notices ++ t.notices }
  Act.ofExcept r

/-- Plans a request. -/
def plan (origin : Origin) (settings : Settings) (q : Request) : Act Session Blueprint := do
  match origin with
  | .live => planWith (Provider.live (← get).world) {} settings.isStrict q
  | .manifests ms => planWith (Provider.ofManifests ms) () settings.isStrict q

/-- Refuses a name that a composite has already. -/
def ensureAvailable (name : String) : Act Session Unit := do
  if (← get).composites.has name then throw (.duplicateType name)

/-- A live object as a value. -/
def valueOf : Handle → Value
  | .cls id => .cls id
  | .function id => .function id

/-- Binds the symbols of a blueprint to their names in its code: the live objects known of, and imported ones. -/
def seedFrom (w : World) (b : Blueprint) : Entries Value → List (String × SymbolRef) → Except Failure (Entries Value)
  | done, [] => .ok done
  | done, (path, r) :: rest => do
    let v ← match b.bindings.get? path with
      | some h => pure (valueOf h)
      | none => w.importSymbol r
    let name ← Source.aliasOf b path
    seedFrom w b (done.put name v) rest

/-- All symbols of a blueprint by their names in its code. -/
def seed (w : World) (b : Blueprint) : Except Failure (Entries Value) := seedFrom w b [] b.symbols

/-- A session with a class under its own name, bound for the caller if asked to. -/
def registered (p : Session) (id : Nat) (binds : Bool) : Session :=
  let name := (p.world.cls id).name
  { p with
    composites := p.composites.put name id
    bound := if binds then p.bound.put name id else p.bound }

/-- Remembers an activated class. -/
def register (id : Nat) (binds : Bool) : Act Session Nat := do
  modify (Session.registered · id binds)
  return id

/-- The name that stands for a file where there is none. -/
def fileName (moduleName : String) : String := "<class-mixer:" ++ moduleName ++ ">"

/-- How the code of a blueprint is run without a file, with the names of its symbols bound. -/
def inProcess (settings : Settings) (b : Blueprint) (names : Entries Value) : World.Launch where
  file := fileName (settings.moduleName b.name)
  module := settings.moduleName b.name
  name := b.name
  seed := names

/-- Defines a composite in the session, without a file. -/
def activate (settings : Settings) (binds : Bool) (b : Blueprint) : Act Session Nat := do
  ensureAvailable b.name
  let code ← Act.ofExcept (Source.compile false b)
  modify fun p => { p with lines := p.lines.put (fileName (settings.moduleName b.name)) code.print }
  let names ← Act.ofExcept (seed (← get).world b)
  let id ← inWorld (World.execute (inProcess settings b names) code)
  note (.activated b.name)
  register id binds

/-- Plans and activates in one go. -/
def mix (origin : Origin) (settings : Settings) (binds : Bool) (q : Request) : Act Session Nat := do
  let b ← plan origin settings q
  activate settings binds b

/-- The code of a composite that is not activated. -/
def render (origin : Origin) (settings : Settings) (imports : Bool) (q : Request) : Act Session Source.Code := do
  let b ← plan origin settings q
  Act.ofExcept (Source.compile imports b)

/-- How the code of a file is run. -/
def fromFile (settings : Settings) (path : Path) (name : String) : World.Launch where
  file := path.text
  module := settings.moduleName name
  name := name

/-- Runs the code that a file holds; only generated code can be run. -/
def loadArtifact (settings : Settings) (path : Path) (name : String) : Act Session Nat := do
  match (← get).files.file? path with
  | some (.code code) => inWorld (World.execute (fromFile settings path name) code)
  | some (.text _) => throw (.fault .syntaxError)
  | some .bytes => throw (.fault .undecodable)
  | none => throw (.fault .file)

/-- Writes a file. -/
def write (path : Path) (body : FileBody) : Act Session Unit := do
  let (files, fault) := (← get).files.attempt path body
  modify fun p => { p with files }
  if fault.isSome then throw (.fault .file)

/-- Compiles a blueprint and writes its artifact; the failure tells whether it can be recovered from. -/
def writeArtifact (path : Path) (b : Blueprint) : Act Session Unit := do
  let code ← Act.ofExcept (Source.compile true b)
  write path (.code code)

/-- Whether a failure to write an artifact can be recovered from. -/
def isWriteFailure : Failure → Bool
  | .notImportable _ => true
  | .fault .file => true
  | _ => false

/-- What is asked for by way of an artifact. -/
structure ArtifactRequest where
  path : Path
  /-- Whether an artifact that is there is made anew. -/
  rewrites : Bool := false
  request : Request

/-- Loads an artifact that is there; nothing if there is none, or if it cannot be loaded. -/
def reuse (settings : Settings) (path : Path) (name : String) : Act Session (Option Nat) :=
  tryCatch
    (do
      let id ← loadArtifact settings path name
      note (.loaded name path.text)
      return some id)
    fun e => do
      note (.setback .unloadable path.text e)
      return none

/-- Writes and loads a new artifact; nothing if either fails in a way that the session can do without. -/
def renew (settings : Settings) (path : Path) (name : String) (b : Blueprint) : Act Session (Option Nat) := do
  let written ← tryCatch (do writeArtifact path b; return true) fun e => do
    if isWriteFailure e then
      note (.setback .unwritten path.text e)
      return false
    else throw e
  if !written then return none
  tryCatch
    (do
      let id ← loadArtifact settings path name
      note (.written name path.text)
      return some id)
    fun e => do
      note (.setback .unusable path.text e)
      return none

/-- Activates a composite by way of an artifact, and without one where that fails. -/
def activateFromCache (origin : Origin) (settings : Settings) (binds : Bool) (a : ArtifactRequest) : Act Session Nat := do
  let name := a.request.name
  ensureAvailable name
  let files := (← get).files
  let path := settings.resolve files.here a.path
  if !a.rewrites && files.isFile path then
    match ← reuse settings path name with
    | some id => register id binds
    | none =>
      let b ← plan origin settings a.request
      activate settings binds b
  else
    let b ← plan origin settings a.request
    match ← renew settings path name b with
    | some id => register id binds
    | none => activate settings binds b

/-- Unloads the module of a composite if it is still the one that defines it. -/
def forget (id : Nat) : Act Session Unit := do
  let p ← get
  let c := p.world.cls id
  match (p.world.loaded.get? c.home).bind fun m => p.world.modules[m]? with
  | none => pure ()
  | some m =>
    match m.names.get? c.name with
    | some (.cls other) =>
      if other == id then
        inWorld (World.unload c.home)
        match m.file with
        | some file => modify fun p => { p with lines := p.lines.erase file }
        | none => throw (.fault .attribute)
    | _ => pure ()

/-- Forgets every composite. -/
def clear : Act Session Unit := do
  (← get).composites.forM fun e => forget e.2
  modify fun p => { p with composites := [] }

/-- The contributors that a composite records of itself. -/
def contributors (id : Nat) : Act Session (List (Value × Value)) := do
  let w := (← get).world
  match (w.cls id).slots.get? reservedField with
  | some (.value (.dict es)) => return es
  | _ => Act.refuse (.notComposite (w.spellClass id))

end Session

end Amalgam
