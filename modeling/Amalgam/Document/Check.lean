import Amalgam.Document
import Amalgam.Failure

/-!
Checking documents against what is expected of them.

A check reads a document into a value or complains of every part that does not fit, in the order of the parts.
-/

namespace Amalgam

/-- A value, or all that is wrong. -/
abbrev Checked (α : Type) := Except (List Complaint) α

/-- A check of the document at a place. -/
abbrev Check (α : Type) := List Step → Document → Checked α

namespace Check

variable {α β : Type}

/-- One complaint. -/
def fail (place : List Step) (m : Mismatch) : Checked α := .error [⟨place, m⟩]

/-- Both values, or the complaints of both. -/
def both : Checked α → Checked β → Checked (α × β)
  | .ok a, .ok b => .ok (a, b)
  | .error es, .ok _ => .error es
  | .ok _, .error es => .error es
  | .error es, .error fs => .error (es ++ fs)

/-- All values, or all complaints. -/
def all : List (Checked α) → Checked (List α)
  | [] => .ok []
  | c :: rest => (both c (all rest)).map fun p => p.1 :: p.2

/-- A text. -/
def text : Check String := fun place d =>
  match d with
  | .str s => .ok s
  | _ => fail place .notText

/-- The words that are read as truth values. -/
def boolWord? (word : String) : Option Bool :=
  let w := word.toLower
  if ["1", "t", "y", "on", "yes", "true"].contains w then some true
  else if ["0", "f", "n", "no", "off", "false"].contains w then some false
  else none

/-- The whole number that a float is, if it is one. -/
def wholeOf? (x : Float) : Option Int :=
  if x.isNaN || x.isInf || x.floor != x then none
  else some (if x == 0.0 then 0 else if x == 1.0 then 1 else 2)

/-- A truth value: one itself, a number that is zero or one, or a word. -/
def bool : Check Bool := fun place d =>
  let ofInt := fun (i : Int) =>
    if i = 0 then .ok false else if i = 1 then .ok true else fail place .unreadableBool
  match d with
  | .bool b => .ok b
  | .int i => ofInt i
  | .float x =>
    match wholeOf? x with
    | some i => ofInt i
    | none => fail place .notBool
  | .str s =>
    match boolWord? s with
    | some b => .ok b
    | none => fail place .unreadableBool
  | _ => fail place .notBool

/-- One of some values that have texts. -/
def choice (values : List α) (textOf : α → String) : Check α := fun place d =>
  match d with
  | .str s =>
    match values.find? fun v => textOf v == s with
    | some v => .ok v
    | none => fail place .notChoice
  | _ => fail place .notChoice

/-- The checks of items, each at its place. -/
def itemsFrom (item : Check α) (place : List Step) : Nat → List Document → List (Checked α)
  | _, [] => []
  | n, d :: rest => item (place ++ [.index n]) d :: itemsFrom item place (n + 1) rest

/-- A list. -/
def list (item : Check α) : Check (List α) := fun place d =>
  match d with
  | .list items => all (itemsFrom item place 0 items)
  | _ => fail place .notList

/-- A table with entries of one kind. -/
def table (item : Check α) : Check (Entries α) := fun place d =>
  match d with
  | .table es => all (es.map fun e => (item (place ++ [.key e.1]) e.2).map fun v => (e.1, v))
  | _ => fail place .notTable

/-- A value or null. -/
def optional (item : Check α) : Check (Option α) := fun place d =>
  match d with
  | .null => .ok none
  | d => (item place d).map some

/-- The entries of a table with fixed keys. -/
def entries (place : List Step) (d : Document) : Checked (Entries Document) :=
  match d with
  | .table es => .ok es
  | _ => fail place .notModel

/-- An entry that must be there. -/
def required (item : Check α) (place : List Step) (es : Entries Document) (key : String) : Checked α :=
  match es.get? key with
  | some d => item (place ++ [.key key]) d
  | none => fail (place ++ [.key key]) .missing

/-- An entry that may be left out. -/
def optionalEntry (item : Check α) (default : α) (place : List Step) (es : Entries Document) (key : String) : Checked α :=
  match es.get? key with
  | some d => item (place ++ [.key key]) d
  | none => .ok default

end Check

end Amalgam
