import Amalgam.Failure
import Amalgam.Text.Markup

/-!
Notices: what is told to the user besides the answer.

Texts are marked up; names from outside are escaped in them.
-/

namespace Amalgam

/-- How urgent a notice is. -/
inductive Level where
  | debug
  | info
  | success
  | warning
  | error
  deriving DecidableEq, Repr

namespace Level

def name : Level → String
  | debug => "DEBUG"
  | info => "INFO"
  | success => "SUCCESS"
  | warning => "WARNING"
  | error => "ERROR"

/-- Levels in order. -/
def rank : Level → Nat
  | debug => 10
  | info => 20
  | success => 25
  | warning => 30
  | error => 40

/-- The sign in front of a message. -/
def sign : Level → String
  | debug => ""
  | info => "ℹ️  "
  | success => "✅ "
  | warning => "⚠️  "
  | error => "❌ "

end Level

/-- What an artifact could not be used for. -/
inductive Setback where
  /-- An artifact that was there could not be loaded. -/
  | unloadable
  /-- A new artifact could not be written. -/
  | unwritten
  /-- A new artifact could not be loaded. -/
  | unusable
  deriving DecidableEq, Repr

def Setback.verb : Setback → String
  | unloadable => "load"
  | unwritten => "write"
  | unusable => "load"

def Setback.remedy : Setback → String
  | unloadable => "Rebuilding in-process."
  | unwritten => "Activating in-process."
  | unusable => "Activating in-process."

/-- One notice. -/
inductive Notice where
  /-- A lenient plan dropped something. -/
  | ignored (cause : Unknown)
  | orderFallback (member : String)
  | noAncestors (path : String)
  | built (composite : String) (methods : Nat)
  | activated (composite : String)
  | loaded (composite path : String)
  | written (composite path : String)
  | setback (what : Setback) (path : String) (cause : Failure)
  | definitionMissing (path : String)
  | cannotRender (path : String) (cause : String)
  | cannotInspect (target : String) (cause : String)
  | cannotWrite (path : String) (cause : String)
  | rendered (composite path : String)
  deriving DecidableEq, Repr

namespace Notice

open Text.Markup (escape)

def level : Notice → Level
  | ignored _ => .warning
  | orderFallback _ => .warning
  | noAncestors _ => .debug
  | built _ _ => .debug
  | activated _ => .debug
  | loaded _ _ => .debug
  | written _ _ => .debug
  | setback _ _ _ => .warning
  | definitionMissing _ => .error
  | cannotRender _ _ => .error
  | cannotInspect _ _ => .error
  | cannotWrite _ _ => .error
  | rendered _ _ => .success

/-- A name shown as code. -/
def code (name : String) : String := "[code]" ++ escape name ++ "[/code]"

/-- A path shown as one. -/
def path (name : String) : String := "[path]" ++ escape name ++ "[/path]"

/-- Why an artifact could not be used; what the system says of it is left out. -/
def reason : Failure → String
  | .notImportable path => (Failure.notImportable path).message?.getD ""
  | _ => "..."

/-- The message without its sign. -/
def message : Notice → String
  | ignored cause => escape cause.message ++ " Ignoring it."
  | orderFallback member =>
    "Combinator order for " ++ code member ++ " names no type defining it. Falling back to the first contributor."
  | noAncestors set => "No manifest for capability set " ++ code set ++ "; assuming no ancestors."
  | built name methods => "Built composite " ++ code name ++ " with " ++ toString methods ++ " generated method(s)."
  | activated name => "Activated " ++ code name ++ " in-process."
  | loaded name file => "Loaded " ++ code name ++ " from " ++ path file ++ "."
  | written name file => "Wrote and loaded " ++ code name ++ " from " ++ path file ++ "."
  | setback what file cause =>
    "Could not " ++ what.verb ++ " cache artifact " ++ path file ++ ": " ++ escape (reason cause) ++ ". " ++ what.remedy
  | definitionMissing file => "Definition not found: " ++ path file
  | cannotRender file cause => "Cannot render " ++ path file ++ ": " ++ escape cause
  | cannotInspect target cause => "Cannot inspect " ++ code target ++ ": " ++ escape cause
  | cannotWrite file cause => "Cannot write " ++ path file ++ ": " ++ escape cause
  | rendered name file => "Rendered " ++ code name ++ " to " ++ path file

/-- The text as it is logged. -/
def text (n : Notice) : String := n.level.sign ++ n.message

end Notice

end Amalgam
