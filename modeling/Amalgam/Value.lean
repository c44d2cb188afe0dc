/-!
Values of the class language: plain data, the two verdicts of advice hooks, and handles of objects that live in a world.

`Value.same` is the language's equality, in which truth values are numbers and numbers compare across kinds.
-/

namespace Amalgam

/-- What an advice hook may decide. -/
inductive Verdict where
  /-- Skip the call and return the carried value. -/
  | shortCircuit
  /-- Let the carried value stand in for the result. -/
  | replace
  deriving DecidableEq, Repr

/-- The name of a verdict's class. -/
def Verdict.name : Verdict → String
  | .shortCircuit => "ShortCircuit"
  | .replace => "Replace"

/-- A value. -/
inductive Value where
  | none
  | bool (value : Bool)
  | int (value : Int)
  | float (value : Float)
  | complex (re im : Float)
  | str (value : String)
  | bytes (value : List Nat)
  | ellipsis
  | list (items : List Value)
  | tuple (items : List Value)
  | set (items : List Value)
  | dict (entries : List (Value × Value))
  /-- An object of which only the name is known. -/
  | token (name : String)
  /-- An object that cannot be written. -/
  | broken
  | verdict (kind : Verdict) (value : Value)
  | cls (id : Nat)
  | inst (id : Nat)
  | function (id : Nat)
  /-- A function with its first argument. -/
  | bound (function : Nat) (receiver : Value)
  /-- A computed attribute, and whether its first result is kept. -/
  | property (getter : Nat) (cached : Bool)
  /-- A started call of an asynchronous function, its parameters bound. -/
  | pending (function : Nat) (arguments : List (String × Value))
  deriving Inhabited

namespace Value

/-- A value as a number, exact for whole numbers. -/
inductive Number where
  | whole (value : Int)
  | real (value : Float)
  | complex (re im : Float)

/-- Equality of numbers across kinds. -/
def Number.same : Number → Number → Bool
  | whole a, whole b => a == b
  | whole a, real b => Float.ofInt a == b
  | real a, whole b => a == Float.ofInt b
  | real a, real b => a == b
  | complex a b, complex c d => a == c && b == d
  | whole a, complex c d => Float.ofInt a == c && d == 0.0
  | real a, complex c d => a == c && d == 0.0
  | complex a b, whole c => a == Float.ofInt c && b == 0.0
  | complex a b, real c => a == c && b == 0.0

/-- The number a value is, truth values being one and zero. -/
def number? : Value → Option Number
  | bool b => some (.whole (if b then 1 else 0))
  | int i => some (.whole i)
  | float x => some (.real x)
  | complex re im => some (.complex re im)
  | _ => Option.none

mutual

/-- Equality of values. -/
def same (a b : Value) : Bool :=
  match a, b with
  | none, none => true
  | ellipsis, ellipsis => true
  | str a, str b => a == b
  | bytes a, bytes b => a == b
  | list as, list bs => sameAll as bs
  | tuple as, tuple bs => sameAll as bs
  | set as, set bs => as.length == bs.length && subset as bs
  | dict as, dict bs => as.length == bs.length && subtable as bs
  | token a, token b => a == b
  | broken, broken => true
  | verdict k a, verdict l b => k == l && same a b
  | cls a, cls b => a == b
  | inst a, inst b => a == b
  | function a, function b => a == b
  | bound a r, bound b s => a == b && same r s
  | property a _, property b _ => a == b
  | a, b =>
    match a.number?, b.number? with
    | some x, some y => x.same y
    | _, _ => false
termination_by structural a

/-- Equality item by item. -/
def sameAll (as bs : List Value) : Bool :=
  match as, bs with
  | [], [] => true
  | a :: as, b :: bs => same a b && sameAll as bs
  | _, _ => false
termination_by structural as

/-- Whether every item of the first list equals one of the second. -/
def subset (as bs : List Value) : Bool :=
  match as with
  | [] => true
  | a :: as => bs.any (fun b => same a b) && subset as bs
termination_by structural as

/-- Whether every entry of the first table equals one of the second. -/
def subtable (as bs : List (Value × Value)) : Bool :=
  match as with
  | [] => true
  | e :: as => bs.any (fun b => sameEntry e b) && subtable as bs
termination_by structural as

/-- Whether two entries have equal keys and equal values. -/
def sameEntry (a b : Value × Value) : Bool :=
  match a, b with
  | (k, v), (l, w) => same k l && same v w
termination_by structural a

end

mutual

/-- Whether a value may be a key or a member of a set. -/
def isHashable : Value → Bool
  | list _ => false
  | set _ => false
  | dict _ => false
  | tuple xs => allHashable xs
  | verdict _ v => isHashable v
  | _ => true

/-- Whether all values of a list may be keys. -/
def allHashable : List Value → Bool
  | [] => true
  | x :: xs => isHashable x && allHashable xs

end

/-- Writes an entry of a table: in place for an equal key, at the end for a new one. -/
def putEntry (key value : Value) : List (Value × Value) → List (Value × Value)
  | [] => [(key, value)]
  | (k, v) :: rest => if same k key then (k, value) :: rest else (k, v) :: putEntry key value rest

/-- The table of the given entries, later ones overwriting earlier ones. -/
def dictOf (entries : List (Value × Value)) : Value :=
  dict (entries.foldl (fun t e => putEntry e.1 e.2 t) [])

/-- The set of the given items, the first of equal ones kept. -/
def setOf (items : List Value) : Value :=
  set (items.foldl (fun s x => if s.any (same x) then s else s ++ [x]) [])

/-- The entry of a table under a key. -/
def lookup? (key : Value) : List (Value × Value) → Option Value
  | [] => Option.none
  | (k, v) :: rest => if same k key then some v else lookup? key rest

/-- The name of a data value's class. -/
def className : Value → String
  | none => "NoneType"
  | bool _ => "bool"
  | int _ => "int"
  | float _ => "float"
  | complex _ _ => "complex"
  | str _ => "str"
  | bytes _ => "bytes"
  | ellipsis => "ellipsis"
  | list _ => "list"
  | tuple _ => "tuple"
  | set _ => "set"
  | dict _ => "dict"
  | token _ => "object"
  | broken => "Broken"
  | verdict k _ => k.name
  | cls _ => "type"
  | inst _ => "object"
  | function _ => "function"
  | bound _ _ => "method"
  | property _ cached => if cached then "cached_property" else "property"
  | pending _ _ => "coroutine"

end Value

end Amalgam
