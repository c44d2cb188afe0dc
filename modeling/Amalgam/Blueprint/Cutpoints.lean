import Amalgam.Combinator
import Amalgam.Value.OfDocument

/-!
Cutpoints: the members that receive advice.

A caller names all members, none, one, or some; the name `ALL` among them stands for the hooks of all members.
-/

namespace Amalgam

/-- One of the names a caller lists, or something that is no name. -/
inductive CutpointName where
  | name (text : String)
  | other (shown : String)
  deriving DecidableEq, Repr

/-- What a caller may give for the cutpoints of a phase. -/
inductive Cutpoints where
  | nothing
  | everything
  | one (name : String)
  | some (names : List CutpointName)
  | other (shown : String)
  deriving DecidableEq, Repr

namespace Cutpoints

/-- The names of a list, duplicates dropped. -/
def names : List String → List CutpointName → Except Refusal (List String)
  | done, [] => .ok done
  | _, .other shown :: _ => .error (.badCutpointName shown)
  | done, .name n :: rest => names (if done.contains n then done else done ++ [n]) rest

/-- The names that cutpoints stand for, given the members that are no hooks. -/
def expand (plain : List String) : Cutpoints → Except Refusal (List String)
  | nothing => .ok []
  | everything => .ok (plain ++ [Advice.all])
  | one name => .ok [name]
  | some items => names [] items
  | other shown => .error (.badCutpoints shown)

/-- Reads cutpoints from a document; a table stands for its keys. -/
def ofDocument : Document → Cutpoints
  | .null => nothing
  | .bool true => everything
  | .bool false => nothing
  | .str name => one name
  | .list items => some (items.map fun
    | .str name => .name name
    | d => .other d.shown)
  | .table entries => some (entries.map fun e => .name e.1)
  | d => other d.shown

/-- The names that can carry advice of a phase; the others are met as unknown. -/
def usable {σ : Type} (strict : Bool) (phase : Phase) (members : List String) : List String → Planner σ (List String)
  | [] => pure []
  | name :: rest =>
    if name == Advice.all then do return name :: (← usable strict phase members rest)
    else if Advice.isHook name then do
      Planner.unknown strict (.hookAsCutpoint name phase)
      usable strict phase members rest
    else if !members.contains name then do
      Planner.unknown strict (.cutpoint phase name)
      usable strict phase members rest
    else do return name :: (← usable strict phase members rest)

end Cutpoints

end Amalgam
