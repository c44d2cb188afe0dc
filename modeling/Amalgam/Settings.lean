import Amalgam.Document.Check
import Amalgam.Document.Toml
import Amalgam.Files
import Amalgam.Text.Name

/-!
Settings: how strictly plans are read, and where generated classes live.

They are given by the caller, or loaded from the nearest project file above a directory; what the caller gives then
comes before what the file says.
-/

namespace Amalgam

/-- How plans are read and where generated classes live. -/
structure Settings where
  isStrict : Bool := false
  /-- The directory that short paths of artifacts begin in. -/
  cacheDir : Option Path := none
  /-- What stands before the name of a generated class to name its module. -/
  modulePrefix : String := "class_mixer_generated"
  deriving DecidableEq, Repr

namespace Settings

open Check

/-- The module of a generated class. -/
def moduleName (s : Settings) (name : String) : String := s.modulePrefix ++ "." ++ name

/-- The full path of an artifact. -/
def resolve (s : Settings) (here path : Path) : Path :=
  here.normal (match s.cacheDir with
    | some dir => dir.join path
    | none => path)

/-- A path. -/
def checkPath : Check Path := fun place d =>
  match d with
  | .str s => .ok (Path.ofString s)
  | _ => fail place .notPath

/-- Identifiers joined by dots, white space around them dropped. -/
def checkPrefix : Check String := fun place d => do
  let text ← text place d
  let name := Text.strip text
  if Text.isDottedIdentifier name then return name
  else fail place (.badValue ("Value error, Invalid module prefix: '" ++ name ++ "'"))

/-- Reads settings from a document. -/
def check : Check Settings := fun place d => do
  let es ← entries place d
  let (isStrict, cacheDir, modulePrefix) ←
    both (optionalEntry bool false place es "strict_mode") <|
    both (optionalEntry (optional checkPath) none place es "cache_dir")
      (optionalEntry checkPrefix ({} : Settings).modulePrefix place es "module_prefix")
  return { isStrict, cacheDir, modulePrefix }

/-- What a caller gives in place of what a project file says. -/
structure Overrides where
  isStrict : Option Document := none
  cacheDir : Option Path := none
  modulePrefix : Option Document := none

/-- The name of project files. -/
def projectFile : Path := Path.ofString "pyproject.toml"

/-- The nearest project file: its directory and its bytes. -/
def nearest? (fs : Files) (start : Path) : Option (Path × FileBody) :=
  start.upwards.findSome? fun dir => (fs.file? (dir.join projectFile)).map (dir, ·)

/-- An entry of something that should be a table. -/
def entryOf (d : Document) (key : String) : Except Failure (Option Document) :=
  match d with
  | .table es => .ok (Entries.get? es key)
  | _ => .error (.fault .attribute)

/-- What the nearest project file says, and its directory; one that cannot be read as such says nothing. -/
def section? (fs : Files) (start : Path) : Except Failure (Document × Option Path) :=
  match nearest? fs start with
  | none => .ok (.table [], none)
  | some (dir, body) =>
    match body.text? with
    | none => .error (.fault .undecodable)
    | some text =>
      match Document.Toml.read? text with
      | none => .ok (.table [], none)
      | some d => do
        let tool := (← entryOf d "tool").getD (.table [])
        let own := (← entryOf tool "class_mixer").getD (.table [])
        return (own, some dir)

/-- Whether something that should be a table has an entry; texts and lists may seem to. -/
def seemsToHave (d : Document) (key : String) : Except Failure Bool :=
  match d with
  | .table es => .ok (Entries.has es key)
  | .str s => if (s.splitOn key).length > 1 then .error (.fault .type) else .ok false
  | .list xs => if xs.any fun x => x.str? == some key then .error (.fault .type) else .ok false
  | _ => .error (.fault .type)

/-- The cache directory that a project file names, seen from its directory. -/
def cacheDirOf (d : Document) (dir : Option Path) : Except Failure (Option Path) := do
  if !(← seemsToHave d "cache_dir") then return none
  match d.get? "cache_dir", dir with
  | some (.str s), some dir =>
    let p := Path.ofString s
    return some (if p.isAbsolute then p else dir.normal p)
  | some (.str s), none => return some (Path.ofString s)
  | _, _ => throw (.fault .type)

/-- A document that counts as given. -/
def given (d : Option Document) : Option Document := d.filter Document.truthy

/-- The settings for a directory. -/
def load (fs : Files) (overrides : Overrides) (start : Path) : Except Failure Settings := do
  let (d, dir) ← section? fs (fs.here.normal start)
  let isStrict ← match overrides.isStrict with
    | some b => pure b
    | none => do pure (.bool (((← entryOf d "strict_mode").map Document.truthy).getD false))
  let cacheDir ← match overrides.cacheDir with
    | some p => pure (some p)
    | none => cacheDirOf d dir
  let modulePrefix ← match given overrides.modulePrefix with
    | some p => pure p
    | none => do pure ((← entryOf d "module_prefix").getD (.str ({} : Settings).modulePrefix))
  let values := [("strict_mode", isStrict), ("module_prefix", modulePrefix)]
  let s ← (check [] (.table values)).mapError .complaints
  return { s with cacheDir }

end Settings

end Amalgam
