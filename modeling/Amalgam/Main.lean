import Amalgam.CommandLine
import Amalgam.Console
import Amalgam.World.Fresh

/-!
The program: it brings in the files that a command line may ask for, runs the command, and puts out what has changed.
-/

open Amalgam

namespace Main

/-- The paths that a command line may ask about: its files, and the project files above them. -/
def pathsOf (here : Path) (args : List String) : List Path :=
  match CommandLine.read args with
  | .run i =>
    match i.command with
    | .render definition out _ =>
      let file := here.normal definition
      [file] ++ file.parent.upwards.map (·.join Settings.projectFile) ++
        (out.map fun p => (here.normal p).upwards).getD []
    | _ => []
  | _ => []

/-- Brings in what stands at a path. -/
def bring (fs : Files) (p : Path) : IO Files := do
  let path := (← IO.currentDir) / p.text
  if ← path.isDir then return fs.put p .directory
  else if ← path.pathExists then
    let bytes ← IO.FS.readBinFile path
    let body := match String.fromUTF8? bytes with
      | some text => FileBody.text text
      | none => .bytes
    return fs.put p (.file body)
  else return fs

/-- Puts a file out. -/
def putOut (name text : String) : IO Unit := do
  let path := (← IO.currentDir) / name
  if let some dir := path.parent then IO.FS.createDirAll dir
  IO.FS.writeFile path text

/-- Writes the log. -/
def writeLog (least : Level) (notices : List Notice) : IO Unit := do
  let mut console : Console := { least := least.rank }
  for n in notices do
    match console.log n.level n.message with
    | .ok (c, lines) =>
      console := c
      for line in lines do IO.println line
    | .error _ => IO.println n.text

end Main

/-- Runs the command line. -/
def main (args : List String) : IO UInt32 := do
  let here := Path.ofString (← IO.currentDir).toString
  let mut files : Files := { here }
  for p in Main.pathsOf here args do
    files ← Main.bring files p
  let (outcome, session) := (CommandLine.run args).runFrom { world := World.fresh, files }
  for (name, text) in session.files.changesSince files do
    Main.putOut name text
  Main.writeLog (CommandLine.leastLevel args) session.notices
  match outcome with
  | .ok o =>
    IO.print o.output
    if o.code == CommandLine.misuse then
      IO.eprintln "usage: class-mixer [-h] [--version] [-v] [--path DIR] render|inspect|schema ..."
    return UInt32.ofNat o.code
  | .error e =>
    IO.eprintln (e.message?.getD "The command failed.")
    return 1
