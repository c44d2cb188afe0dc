import Amalgam.Advice
import Amalgam.Manifest

/-!
What can go wrong, by cause.

A `Refusal` is an input that this library turns down, with a message of its own. The other failures come from the
language that composites are written in, or from the system.
-/

namespace Amalgam

/-- Why a symbol cannot be imported. -/
inductive ImportFault where
  | noModule (name : String)
  | notPackage (name parent : String)
  /-- The owner is given as the message names it. -/
  | noAttribute (owner name : String)
  deriving DecidableEq, Repr

def ImportFault.message : ImportFault → String
  | noModule name => s!"No module named '{name}'"
  | notPackage name parent => s!"No module named '{name}'; '{parent}' is not a package"
  | noAttribute owner name => s!"{owner} has no attribute '{name}'"

/-- A name that no contributor answers to, or a hook that cannot be used. Lenient plans drop it, strict ones refuse. -/
inductive Unknown where
  | combinator (member : String)
  | hookAsCutpoint (hook : String) (phase : Phase)
  | cutpoint (phase : Phase) (name : String)
  | asyncHook (hook member : String)
  deriving DecidableEq, Repr

def Unknown.message : Unknown → String
  | combinator member => s!"Combinator registered for '{member}', which no contributor defines."
  | hookAsCutpoint hook phase => s!"Advice hook '{hook}' cannot carry {phase.text}-advice."
  | cutpoint phase name => s!"{phase.title} cutpoint names '{name}', which no contributor defines."
  | asyncHook hook member => s!"Advice hook '{hook}' is a coroutine function but '{member}' is synchronous."

/-- A step from a document to one of its parts. -/
inductive Step where
  | key (name : String)
  | index (n : Nat)
  deriving DecidableEq, Repr

/-- What is wrong with a part of a document. -/
inductive Mismatch where
  | missing
  | notText
  | notList
  | notTable
  | notModel
  | notBool
  | unreadableBool
  | notChoice
  | notPath
  | badValue (message : String)
  deriving DecidableEq, Repr

/-- A part of a document that does not fit. -/
structure Complaint where
  place : List Step
  mismatch : Mismatch
  deriving DecidableEq, Repr

/-- Why a file cannot be read as a document. -/
inductive Unreadable where
  | missing
  | isDirectory
  | notUtf8
  | notJson
  | notToml
  deriving DecidableEq, Repr

/-- The inputs that the library turns down. -/
inductive Refusal where
  | badReference (text : String)
  | noReference (shown : String)
  | localSymbol (path : String)
  | cannotImport (path : String) (fault : ImportFault)
  | noManifest (path : String)
  | noMember (path name : String)
  | notClass (path : String)
  | classExpected (shown : String)
  | badClassName (name : String)
  | repeated (path : String)
  | badCombination (shown : String)
  | badPair (member shown : String)
  | badCombinator (member shown : String)
  | strangerInOrder (member path : String)
  | badCutpointName (shown : String)
  | badCutpoints (shown : String)
  | unknown (cause : Unknown)
  | reservedField (path : String)
  | notComposite (shown : String)
  | badFormat (suffix : String)
  | unreadable (path : String) (cause : Unreadable)
  | invalidDefinition (path : String) (complaints : List Complaint)
  deriving DecidableEq, Repr

def Refusal.message : Refusal → String
  | badReference text => s!"Invalid symbol reference '{text}'. Expected 'module:qualname'."
  | noReference shown => s!"Cannot derive an importable reference for {shown}."
  | localSymbol path => s!"'{path}' is a local symbol and cannot be imported."
  | cannotImport path fault => s!"Cannot import '{path}': {fault.message}"
  | noManifest path => s!"No manifest registered for '{path}'."
  | noMember path name => s!"'{path}' defines no member '{name}'."
  | notClass path => s!"'{path}' is not a class."
  | classExpected shown => s!"Expected a class, got {shown}."
  | badClassName name => s!"'{name}' is not a valid class name."
  | repeated path => s!"'{path}' appears more than once in the mix."
  | badCombination shown => s!"Combinator must be a callable or 'module:qualname' string, got {shown}."
  | badPair member shown => s!"Combinator for '{member}' must be a function or a (function, [types...]) pair, got {shown}."
  | badCombinator member shown => s!"Invalid combinator for '{member}': {shown}."
  | strangerInOrder member path =>
    s!"Combinator order for '{member}' names '{path}', which is not part of the mix."
  | badCutpointName shown => s!"Cutpoint names must be strings, got {shown}."
  | badCutpoints shown => s!"Invalid cutpoint spec {shown}. Expected True, a name or a collection of names."
  | unknown cause => cause.message
  | reservedField path => s!"'{path}' declares the reserved field '{Amalgam.reservedField}'."
  | notComposite shown => s!"{shown} is not a composite class."
  | badFormat suffix => s!"Unsupported definition format '{suffix}'. Use .json or .toml."
  | unreadable path _ => s!"Cannot read mix definition '{path}'"
  | invalidDefinition path _ => s!"Invalid mix definition '{path}'"

/-- The kinds of failures of the language and of the system. -/
inductive Fault where
  /-- A call or an operation that does not fit its operands. -/
  | type
  | attribute
  | value
  | key
  | index
  | undefinedName
  /-- A local that is used before it has a value. -/
  | unassigned
  | importing
  | recursion
  /-- A text that is no code. -/
  | syntaxError
  /-- A name that cannot stand in a tree of code. -/
  | badName
  /-- A statement that cannot be read. -/
  | badStatement
  | markup
  | assertion
  | undecodable
  | file
  deriving DecidableEq, Repr

/-- What stops an operation. -/
inductive Failure where
  | refusal (cause : Refusal)
  | duplicateType (name : String)
  | notImportable (path : String)
  | hostTooOld (found : String)
  | complaints (parts : List Complaint)
  /-- Raised by a body of the class model, with its text. -/
  | raised (text : String)
  | fault (kind : Fault)
  deriving DecidableEq, Repr

/-- The text of a failure; failures of the language and the system have no text of ours. -/
def Failure.message? : Failure → Option String
  | refusal cause => some cause.message
  | duplicateType name => some s!"Composite type '{name}' is already defined in this process."
  | notImportable path =>
    some s!"'{path}' is not importable from a cache artifact (defined in a local scope)."
  | hostTooOld found => some s!"class-mixer requires Python 3.10 or above (found {found})."
  | raised text => some text
  | complaints _ => none
  | fault _ => none

/-- Whether a failure is one of this library, which its commands report. -/
def Failure.isOwn : Failure → Bool
  | refusal _ => true
  | duplicateType _ => true
  | notImportable _ => true
  | hostTooOld _ => true
  | _ => false

/-- The oldest host version that will do. -/
def oldestHost : Nat × Nat := (3, 10)

/-- Whether a version is old, compared by its first two numbers. -/
def isHostOld : List Nat → Bool
  | [] => true
  | [major] => major ≤ oldestHost.1
  | major :: minor :: _ => major < oldestHost.1 || (major == oldestHost.1 && minor < oldestHost.2)

/-- Refuses versions below the oldest one that will do. -/
def checkHost (version : List Nat) : Except Failure Unit :=
  if isHostOld version then .error (.hostTooOld (String.intercalate "." ((version.take 3).map toString)))
  else .ok ()

end Amalgam
