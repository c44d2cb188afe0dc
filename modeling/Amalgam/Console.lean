import Amalgam.Notice
import Amalgam.Text.Columns

/-!
The console: what is printed on it, what of the log reaches it, and what it records.

A log line begins with its level in a column of nine characters; the lines that follow it are indented by as many.
-/

namespace Amalgam

/-- A console with the log written to it. -/
structure Console where
  isRecording : Bool := false
  /-- The lines recorded and not yet taken. -/
  record : List String := []
  /-- The rank that log messages must reach. -/
  least : Nat := Level.info.rank

namespace Console

/-- What a step on a console gives: the console, and the lines written. -/
abbrev Written := Except Failure (Console × List String)

/-- How wide the column of levels is. -/
def levelWidth : Nat := 9

/-- The lines of a marked text. -/
def linesOf (markup : String) : Except Failure (List (List Char)) :=
  match Text.Markup.plain? markup with
  | some text => .ok ((Text.splitList (· == '\n') text.toList).map (Text.expandTabs 0))
  | none => .error (.fault .markup)

/-- A line as it shows. -/
def shown (line : List Char) : String := String.ofList (Text.stripEnd line)

/-- Writes lines, and records them if the console does. -/
def write (c : Console) (lines : List (List Char)) : Console × List String :=
  let lines := lines.map shown
  ({ c with record := if c.isRecording then c.record ++ lines else c.record }, lines)

/-- Prints a marked text. -/
def print (c : Console) (markup : String) : Written := do
  return c.write (← linesOf markup)

/-- Puts the name of a level in front of lines. -/
def withLevel (level : Level) (lines : List (List Char)) : List (List Char) :=
  let name := level.name.toList
  let first := name ++ List.replicate (levelWidth - name.length) ' '
  match lines with
  | [] => [first]
  | line :: rest => (first ++ line) :: rest.map (List.replicate levelWidth ' ' ++ ·)

/-- Logs a marked text; what is below the least rank goes nowhere. -/
def log (c : Console) (level : Level) (markup : String) : Written := do
  if level.rank < c.least then return (c, [])
  return c.write (withLevel level (← linesOf (level.sign ++ markup)))

/-- A new console that records; the log starts at its usual level. -/
def recording : Console := { isRecording := true }

/-- A new console that does not record. -/
def plain : Console := {}

/-- The rank of a level by its name; without a level of its own the log has that of the root. -/
def rankOf? (name : String) : Option Nat :=
  match name with
  | "DEBUG" => some Level.debug.rank
  | "INFO" => some Level.info.rank
  | "SUCCESS" => some Level.success.rank
  | "WARNING" => some Level.warning.rank
  | "WARN" => some Level.warning.rank
  | "ERROR" => some Level.error.rank
  | "CRITICAL" => some 50
  | "FATAL" => some 50
  | "NOTSET" => some Level.warning.rank
  | _ => none

/-- Sets the least rank. -/
def setLevel (c : Console) (name : String) : Except Failure Console :=
  match rankOf? name with
  | some rank => .ok { c with least := rank }
  | none => .error (.fault .value)

/-- Takes the lines recorded. -/
def takeRecord (c : Console) : Except Failure (Console × List String) :=
  if c.isRecording then .ok ({ c with record := [] }, c.record) else .error (.fault .assertion)

end Console

end Amalgam
