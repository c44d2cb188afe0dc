import Amalgam.Entries
import Amalgam.FirstFree
import Amalgam.Symbol
import Amalgam.Text.Name

/-!
Aliases: the names of symbols in generated code.

Each symbol asks for its own name; where that is taken, it gets a number behind it, counted from two.
-/

namespace Amalgam.Alias

/-- The locals of generated bodies. -/
def returnSlot : String := "_mixer_ret"

def decisionSlot : String := "_mixer_decision"

/-- The names that generated code uses with a fixed meaning. -/
def fixedNames : List String := ["self", "cls", returnSlot, decisionSlot, "isinstance", "staticmethod", "classmethod"]

/-- The name a symbol asks for: word characters only, and no digit in front. -/
def seed (r : SymbolRef) : String :=
  let word := ((r.name.toList.takeWhile (· != '#')).map fun c => if Text.isWord c then c else '_')
  match word with
  | [] => "_sym"
  | c :: rest => String.ofList (if Text.isDigit c then '_' :: c :: rest else c :: rest)

/-- The n-th name tried for a seed. -/
def nth (seed : String) (n : Nat) : String := if n ≤ 1 then seed else seed ++ "_" ++ toString n

/-- The first name for a seed that is not taken. -/
def choose (taken : List String) (seed : String) : String :=
  nth seed (firstFree (fun n => !taken.contains (nth seed n)) taken.length 1)

/-- Names the symbols one after another, given the names taken and the aliases so far. -/
def assignFrom : (taken : List String) → Entries String → List SymbolRef → Entries String
  | _, aliases, [] => aliases
  | taken, aliases, r :: rest =>
    if aliases.has r.path then assignFrom taken aliases rest
    else
      let name := choose taken (seed r)
      assignFrom (name :: taken) (aliases.put r.path name) rest

/-- Names the symbols, avoiding reserved names and reserved words. -/
def assign (symbols : List SymbolRef) (reserved : List String) : Entries String :=
  assignFrom (reserved ++ Text.reservedWords) [] symbols

end Amalgam.Alias
