import Amalgam.Entries
import Amalgam.Text.Decimal

/-!
Documents: the trees that JSON and TOML texts denote. Tables keep the order of their keys.
-/

namespace Amalgam

/-- A tree of plain data. -/
inductive Document where
  | null
  | bool (value : Bool)
  | int (value : Int)
  | float (value : Float)
  | str (value : String)
  | list (items : List Document)
  | table (entries : List (String × Document))
  /-- A date or time, by its text. -/
  | moment (text : String)
  deriving Inhabited

namespace Document

/-- The entries of a table; none for other documents. -/
def entries? : Document → Option (Entries Document)
  | table es => some es
  | _ => none

/-- The entry of a table under a key. -/
def get? (d : Document) (key : String) : Option Document :=
  d.entries?.bind fun es => Entries.get? es key

/-- The text of a text document. -/
def str? : Document → Option String
  | str s => some s
  | _ => none

/-- The items of a list document. -/
def items? : Document → Option (List Document)
  | list xs => some xs
  | _ => none

/-- Whether a document counts as true where a truth value is wanted: all but null, false, zero and empty ones. -/
def truthy : Document → Bool
  | null => false
  | bool b => b
  | int i => i != 0
  | float x => x != 0.0
  | str s => !s.isEmpty
  | list xs => !xs.isEmpty
  | table es => !es.isEmpty
  | moment _ => true

end Document

end Amalgam
