import Amalgam.Document
import Amalgam.Value.Spelling

/-!
Documents as values of the class language.
-/

namespace Amalgam

mutual

/-- The value of a document. -/
def Value.ofDocument : Document → Value
  | .null => .none
  | .bool b => .bool b
  | .int i => .int i
  | .float x => .float x
  | .str s => .str s
  | .list xs => .list (Value.ofDocuments xs)
  | .table es => Value.dictOf (Value.ofEntries es)
  | .moment t => .token t

/-- The values of documents. -/
def Value.ofDocuments : List Document → List Value
  | [] => []
  | x :: xs => Value.ofDocument x :: Value.ofDocuments xs

/-- The values of the entries of a table. -/
def Value.ofEntries : List (String × Document) → List (Value × Value)
  | [] => []
  | (k, v) :: es => (.str k, Value.ofDocument v) :: Value.ofEntries es

end

/-- How a document is shown as a value. -/
def Document.shown (d : Document) : String := Value.spellSafely (fun _ => Option.none) (Value.ofDocument d)

end Amalgam
