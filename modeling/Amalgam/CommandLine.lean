import Amalgam.CommandLine.Arguments
import Amalgam.Definition.File
import Amalgam.Definition.Schema
import Amalgam.Session

/-!
The commands: rendering a definition, inspecting a class, and telling the schema of definitions.

A command ends with an exit code and may write to the standard output; what it has to say besides goes to the log.
Failures of the library's own are logged and give the exit code one; others escape.
-/

namespace Amalgam

/-- Where a plan of a definition learns of its contributors. -/
def Definition.origin (d : Definition) : Origin :=
  match d.manifests with
  | some ms => .manifests ms
  | none => .live

namespace CommandLine

/-- The exit code of a command and what it writes to the standard output. -/
structure Outcome where
  code : Nat
  output : String := ""
  deriving DecidableEq, Repr

def success : Nat := 0

def failure : Nat := 1

/-- The exit code of arguments that cannot be read. -/
def misuse : Nat := 2

/-- What the program calls itself. -/
def versionText : String := "class-mixer 0.1.0"

/-- Fails with a notice. -/
def giveUp (n : Notice) : Act Session Outcome := do
  Session.note n
  return { code := failure }

/-- Does something; its own failures are told by a notice. -/
def reporting (act : Act Session Outcome) (n : (cause : String) → Notice) : Act Session Outcome :=
  tryCatch act fun e =>
    if e.isOwn then giveUp (n (e.message?.getD "")) else throw e

/-- The code of the definition in a file. -/
def codeOf (path : Path) (settings : Settings) : Act Session (String × Source.Code) := do
  let d ← Act.ofExcept (Definition.ofFile (← get).files path)
  let b ← Session.plan d.origin settings d.request
  let code ← Act.ofExcept (Source.compile true b)
  return (b.name, code)

/-- Writes code to a file, or to the standard output. -/
def deliver (out : Option Path) (name : String) (code : Source.Code) : Act Session Outcome := do
  match out with
  | none => return { code := success, output := code.print }
  | some path =>
    let (files, fault) := (← get).files.attempt path (.code code)
    modify fun s => { s with files }
    match fault with
    | some fault => giveUp (.cannotWrite path.text fault.message)
    | none =>
      Session.note (.rendered name path.text)
      return { code := success }

/-- Renders the definition in a file. -/
def render (path : Path) (out : Option Path) (isStrict : Bool) : Act Session Outcome := do
  let fs := (← get).files
  if !fs.isFile path then giveUp (.definitionMissing path.text)
  else
    let overrides : Settings.Overrides := { isStrict := if isStrict then some (.bool true) else none }
    let settings ← Act.ofExcept (Settings.load fs overrides (fs.here.normal path).parent)
    let made ← tryCatch
      (do return Except.ok (← codeOf path settings))
      fun e => if e.isOwn then return Except.error (e.message?.getD "") else throw e
    match made with
    | .error cause => giveUp (.cannotRender path.text cause)
    | .ok (name, code) => deliver out name code

/-- The manifest of a class, its members perhaps only those that may be taken from it in a role. -/
def manifestFor (w : World) (target : String) (role : Option Role) : Act Roster Manifest := do
  let p := Provider.live w
  let r ← p.resolve (.text target)
  let m ← p.manifest r
  match role with
  | none => return m
  | some role => return { m with members := m.eligibleMembers role }

/-- Tells the manifest of a class. -/
def inspect (target : String) (role : Option Role) : Act Session Outcome :=
  reporting
    (do
      let m ← Act.ofExcept ((manifestFor (← get).world target role).runFrom {}).1
      return { code := success, output := Document.Json.writeIndented false "" m.document ++ "\n" })
    (.cannotInspect target)

/-- Tells the schema of definitions. -/
def schema : Outcome :=
  { code := success, output := Document.Json.writeIndented true "" Definition.Schema.document ++ "\n" }

/-- Runs a command. -/
def Command.run : Command → Act Session Outcome
  | .render path out isStrict => CommandLine.render path out isStrict
  | .inspect target role => CommandLine.inspect target role
  | .schema => pure CommandLine.schema

/-- The directories that a command line puts before all others to import from. -/
def importDirectories (here : Path) (args : List String) : List Path :=
  match read args with
  | .run i => i.importPaths.map here.normal
  | _ => []

/-- The least level of what is logged. -/
def leastLevel (args : List String) : Level :=
  match read args with
  | .run i => if i.isVerbose then .debug else .info
  | _ => .info

/-- Runs a command line. -/
def run (args : List String) : Act Session Outcome :=
  match read args with
  | .run i => i.command.run
  | .help => pure { code := success }
  | .version => pure { code := success, output := versionText ++ "\n" }
  | .misuse => pure { code := misuse }

end CommandLine

end Amalgam
