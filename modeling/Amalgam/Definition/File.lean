import Amalgam.Definition
import Amalgam.Document.Json
import Amalgam.Document.Toml
import Amalgam.Files

/-!
Definitions in files, as JSON or TOML by the suffix of the name.
-/

namespace Amalgam.Definition

/-- The text of a file. -/
def textOf (fs : Files) (p : Path) : Except Unreadable String :=
  match fs.find? p with
  | none => .error .missing
  | some .directory => .error .isDirectory
  | some (.file body) =>
    match body.text? with
    | some text => .ok text
    | none => .error .notUtf8

/-- The document of a text in the format of a suffix. -/
def documentOf (suffix text : String) : Except Unreadable Document :=
  if suffix == ".json" then
    match Document.Json.read? text with
    | some d => .ok d
    | none => .error .notJson
  else
    match Document.Toml.read? text with
    | some d => .ok d
    | none => .error .notToml

/-- The formats by their suffixes, in small letters. -/
def suffixes : List String := [".json", ".toml"]

/-- Reads the definition in a file. -/
def ofFile (fs : Files) (p : Path) : Except Failure Definition := do
  let suffix := p.suffix.toLower
  if !suffixes.contains suffix then .error (.refusal (.badFormat p.suffix))
  let d ← (do documentOf suffix (← textOf fs p)).mapError fun cause => .refusal (.unreadable p.text cause)
  (ofDocument d).mapError fun complaints => .refusal (.invalidDefinition p.text complaints)

end Amalgam.Definition
