import Amalgam.Text.CharSet

/-!
Paths of files, read by their text alone.

A path is a root and its parts; empty parts and single dots are dropped when it is read. `Path.normal` also takes every
double dot back one step, which is where a path leads as long as no link stands in the way.
-/

namespace Amalgam

/-- A path: the slashes it begins with (none, one, or exactly two) and its parts. -/
structure Path where
  root : String
  parts : List String
  deriving DecidableEq, Repr, Inhabited

namespace Path

/-- The leading slashes that count: two stay two, more are one. -/
def rootOf (cs : List Char) : String :=
  match cs with
  | '/' :: '/' :: '/' :: _ => "/"
  | '/' :: '/' :: _ => "//"
  | '/' :: _ => "/"
  | _ => ""

/-- Reads a path. -/
def ofString (s : String) : Path where
  root := rootOf s.toList
  parts := (Text.splitOnChar '/' s).filter fun part => part != "" && part != "."

/-- The text of a path; the empty path is a dot. -/
def text (p : Path) : String :=
  let body := p.root ++ String.intercalate "/" p.parts
  if body.isEmpty then "." else body

def isAbsolute (p : Path) : Bool := !p.root.isEmpty

/-- A path seen from another one. -/
def join (p q : Path) : Path := if q.isAbsolute then q else { p with parts := p.parts ++ q.parts }

/-- The directory of a path; the top is its own directory. -/
def parent (p : Path) : Path := { p with parts := p.parts.dropLast }

/-- The path followed by the directories above it. -/
def upwards (p : Path) : List Path :=
  (List.range (p.parts.length + 1)).map fun n => { p with parts := p.parts.take (p.parts.length - n) }

/-- The last part. -/
def name (p : Path) : String := p.parts.getLast?.getD ""

/-- The last dot of the name and what follows it, unless the dot begins or ends the name. -/
def suffix (p : Path) : String :=
  let back := p.name.toList.reverse
  let tail := back.takeWhile (· != '.')
  let before := (back.dropWhile (· != '.')).drop 1
  if tail.isEmpty || before.isEmpty then "" else String.ofList ('.' :: tail.reverse)

/-- Takes double dots back; the steps so far are reversed. -/
def climb : List String → List String → List String
  | done, [] => done.reverse
  | done, part :: rest => if part == ".." then climb (done.drop 1) rest else climb (part :: done) rest

/-- Where a path leads from a directory. -/
def normal (here p : Path) : Path :=
  let whole := here.join p
  { root := "/", parts := climb [] whole.parts }

end Path

end Amalgam
