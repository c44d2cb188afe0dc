import Amalgam.Entries
import Amalgam.Path
import Amalgam.Source.Print
import Amalgam.Text.Quoted

/-!
Files and directories.

Everything is kept under its full path. Code that was written stays known as code, so that it can be run again from the
file it went to.
-/

namespace Amalgam

/-- What a file holds. -/
inductive FileBody where
  | text (text : String)
  /-- Bytes that are no text. -/
  | bytes
  | code (code : Source.Code)

/-- The text of a file, if its bytes are one. -/
def FileBody.text? : FileBody → Option String
  | text t => some t
  | bytes => none
  | code c => some c.print

/-- What stands at a path. -/
inductive Node where
  | directory
  | file (body : FileBody)

/-- Why nothing can be written at a path. -/
inductive WriteFault where
  | exists (path : String)
  | notDirectory (path : String)
  | isDirectory (path : String)
  deriving DecidableEq, Repr

def WriteFault.message : WriteFault → String
  | .exists path => "[Errno 17] File exists: " ++ Text.Quoted.quote path
  | notDirectory path => "[Errno 20] Not a directory: " ++ Text.Quoted.quote path
  | isDirectory path => "[Errno 21] Is a directory: " ++ Text.Quoted.quote path

/-- All files and directories, by their full paths, and the directory where short paths begin. -/
structure Files where
  here : Path
  nodes : Entries Node := []

namespace Files

/-- What stands at a full path without double dots; the directory to begin with and those above it are always there. -/
def node? (fs : Files) (p : Path) : Option Node :=
  match fs.nodes.get? p.text with
  | some n => some n
  | none => if fs.here.upwards.contains p then some .directory else none

def isDirectory (fs : Files) (p : Path) : Bool :=
  match fs.node? p with
  | some .directory => true
  | _ => false

/-- Walks from a directory along parts, each step out of a directory that is there. -/
def walk (fs : Files) : Path → List String → Option Path
  | p, [] => some p
  | p, part :: rest =>
    if !fs.isDirectory p then none
    else if part == ".." then walk fs p.parent rest
    else walk fs { p with parts := p.parts ++ [part] } rest

/-- The full path that a path leads to. -/
def locate (fs : Files) (p : Path) : Option Path := fs.walk { root := "/", parts := [] } (fs.here.join p).parts

/-- What stands at a path. -/
def find? (fs : Files) (p : Path) : Option Node := (fs.locate p).bind fs.node?

/-- The file at a path. -/
def file? (fs : Files) (p : Path) : Option FileBody :=
  match fs.find? p with
  | some (.file body) => some body
  | _ => none

def isFile (fs : Files) (p : Path) : Bool := (fs.file? p).isSome

/-- Stores a node under a full path. -/
def put (fs : Files) (p : Path) (n : Node) : Files := { fs with nodes := fs.nodes.put p.text n }

/-- Makes the directories along parts, as far as no file is in the way: what stands then, and the full path got to. -/
def makeAlong (fs : Files) : Path → List String → Files × Option Path
  | p, [] => (fs, some p)
  | p, part :: rest =>
    if part == ".." then makeAlong fs p.parent rest
    else
      let next : Path := { p with parts := p.parts ++ [part] }
      match fs.node? next with
      | some .directory => makeAlong fs next rest
      | some (.file _) => (fs, none)
      | none => makeAlong (fs.put next .directory) next rest

/-- Makes a directory with all those above it, and gives its full path. -/
def makeDirectory (fs : Files) (p : Path) : Files × Except WriteFault Path :=
  match fs.makeAlong { root := "/", parts := [] } (fs.here.join p).parts with
  | (made, some full) => (made, .ok full)
  | (made, none) => (made, .error (if (fs.find? p).isSome then .exists p.text else .notDirectory p.text))

/-- Tries to write a file, with the directories it needs; those that were made stay if something is in the way of the file. -/
def attempt (fs : Files) (p : Path) (body : FileBody) : Files × Option WriteFault :=
  if p.parts.isEmpty then (fs, some (.isDirectory p.text))
  else
    match fs.makeDirectory p.parent with
    | (made, .error fault) => (made, some fault)
    | (made, .ok parent) =>
      let target : Path := if p.name == ".." then parent.parent else { parent with parts := parent.parts ++ [p.name] }
      if made.isDirectory target then (made, some (.isDirectory p.text)) else (made.put target (.file body), none)

/-- Writes a file, with the directories it needs. -/
def write (fs : Files) (p : Path) (body : FileBody) : Except WriteFault Files :=
  match fs.attempt p body with
  | (written, none) => .ok written
  | (_, some fault) => .error fault

/-- The texts of all files in the order in which their paths arrived. -/
def texts (fs : Files) : List (String × String) :=
  fs.nodes.filterMap fun e => match e.2 with
    | .file body => body.text?.map (e.1, ·)
    | .directory => none

/-- The files that are new or hold another text than before. -/
def changesSince (fs before : Files) : List (String × String) := fs.texts.filter fun e => !before.texts.contains e

end Files

end Amalgam
