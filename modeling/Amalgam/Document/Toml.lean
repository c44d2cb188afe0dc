import Amalgam.Document.Toml.Tree
import Amalgam.Document.Number

/-!
TOML texts, read into documents.

A text is a sequence of statements, one to a line: a table header, the header of one more table of an array, or a key
with a value. Each changes the tree of `Amalgam.Document.Toml.Tree`; a text is refused when a statement is malformed or
the tree does not admit it.
-/

namespace Amalgam.Document.Toml

/-- Control characters, the tab apart. -/
def isIllegal (c : Char) : Bool := (c.toNat < 32 && c != '\t') || c.toNat == 127

def isSpace (c : Char) : Bool := c == ' ' || c == '\t'

def skip (cs : List Char) : List Char := cs.dropWhile isSpace

def isBareKey (c : Char) : Bool := c.isAlphanum || c == '-' || c == '_'

/-- Drops a comment up to the end of its line. -/
def skipComment? : List Char → Option (List Char)
  | '#' :: rest =>
    let (body, rest) := rest.span (· != '\n')
    if body.any isIllegal then none else some rest
  | cs => some cs

/-- Drops white space, line ends and comments between the items of an array. -/
def skipLines? : (fuel : Nat) → List Char → Option (List Char)
  | 0, cs => some cs
  | fuel + 1, cs =>
    match cs.dropWhile fun c => isSpace c || c == '\n' with
    | '#' :: rest => (skipComment? ('#' :: rest)).bind (skipLines? fuel)
    | rest => some rest

/-- A character by its code. -/
def codeChar? (width : Nat) (cs : List Char) : Option (Char × List Char) := do
  let ds := cs.take width
  if ds.length < width then none
  else
    let n ← Number.ofDigitsIn? 16 ds
    if (0xD800 ≤ n && n < 0xE000) || n ≥ 0x110000 then none else some (Char.ofNat n, cs.drop width)

/-- The escape after a backslash, `u`, `U` and line ends apart. -/
def shortEscape? : Char → Option Char
  | 'b' => some '\x08'
  | 't' => some '\t'
  | 'n' => some '\n'
  | 'f' => some '\x0c'
  | 'r' => some '\r'
  | '"' => some '"'
  | '\\' => some '\\'
  | _ => none

/-- The rest of a text after its opening double quotes. -/
def basicText? (multiline : Bool) : (fuel : Nat) → List Char → List Char → Option (String × List Char)
  | 0, _, _ => none
  | _ + 1, _, [] => none
  | fuel + 1, acc, '"' :: rest =>
    if multiline then
      match rest with
      | '"' :: '"' :: rest => some (String.ofList acc.reverse, rest)
      | _ => basicText? multiline fuel ('"' :: acc) rest
    else some (String.ofList acc.reverse, rest)
  | fuel + 1, acc, '\\' :: 'u' :: rest => do
    let (c, rest) ← codeChar? 4 rest
    basicText? multiline fuel (c :: acc) rest
  | fuel + 1, acc, '\\' :: 'U' :: rest => do
    let (c, rest) ← codeChar? 8 rest
    basicText? multiline fuel (c :: acc) rest
  | fuel + 1, acc, '\\' :: c :: rest =>
    if multiline && (isSpace c || c == '\n') then
      match (c :: rest).dropWhile isSpace with
      | '\n' :: more => basicText? multiline fuel acc (more.dropWhile fun c => isSpace c || c == '\n')
      | [] => basicText? multiline fuel acc []
      | _ => none
    else (shortEscape? c).bind fun e => basicText? multiline fuel (e :: acc) rest
  | fuel + 1, acc, c :: rest =>
    if c == '\\' || (isIllegal c && !(multiline && c == '\n')) then none
    else basicText? multiline fuel (c :: acc) rest

/-- The rest of a text after three single quotes, up to the next three. -/
def rawLines? : List Char → List Char → Option (String × List Char)
  | acc, '\'' :: '\'' :: '\'' :: rest => some (String.ofList acc.reverse, rest)
  | acc, c :: rest => if isIllegal c && c != '\n' then none else rawLines? (c :: acc) rest
  | _, [] => none

/-- The rest of a text after a single quote. -/
def rawText? (cs : List Char) : Option (String × List Char) :=
  let (body, rest) := cs.span (· != '\'')
  match rest with
  | _ :: rest => if body.any isIllegal then none else some (String.ofList body, rest)
  | [] => none

/-- Up to two more quotes directly after the closing three belong to the text. -/
def extraQuotes (quote : Char) (s : String) : List Char → String × List Char
  | a :: b :: rest =>
    if a == quote && b == quote then (s ++ String.ofList [a, b], rest)
    else if a == quote then (s ++ String.ofList [a], b :: rest)
    else (s, a :: b :: rest)
  | [a] => if a == quote then (s ++ String.ofList [a], []) else (s, [a])
  | [] => (s, [])

/-- A line end directly after the opening quotes does not belong to the text. -/
def dropFirstLineEnd : List Char → List Char
  | '\n' :: rest => rest
  | cs => cs

/-- One part of a key. -/
def keyPart? (cs : List Char) : Option (String × List Char) :=
  match cs with
  | '\'' :: rest => rawText? rest
  | '"' :: rest => basicText? false (rest.length + 1) [] rest
  | _ =>
    let (part, rest) := cs.span isBareKey
    if part.isEmpty then none else some (String.ofList part, rest)

/-- A key of one or more parts, blanks after it dropped. -/
def key? : (fuel : Nat) → List Char → Option (List String × List Char)
  | 0, _ => none
  | fuel + 1, cs => do
    let (part, rest) ← keyPart? cs
    match skip rest with
    | '.' :: rest =>
      let (parts, rest) ← key? fuel (skip rest)
      some (part :: parts, rest)
    | rest => some ([part], rest)

/-- Exactly `width` decimal digits with a value within the bounds. -/
def field? (width low high : Nat) (cs : List Char) : Option (Nat × List Char) :=
  let ds := cs.take width
  if ds.length = width && ds.all Char.isDigit then
    let n := Number.ofDigits ds
    if low ≤ n && n ≤ high then some (n, cs.drop width) else none
  else none

/-- Drops one expected character. -/
def expect? (c : Char) : List Char → Option (List Char)
  | d :: rest => if c == d then some rest else none
  | [] => none

/-- A time of day, with any number of digits of a second's fraction. -/
def time? (cs : List Char) : Option (List Char) := do
  let (_, cs) ← field? 2 0 23 cs
  let cs ← expect? ':' cs
  let (_, cs) ← field? 2 0 59 cs
  let cs ← expect? ':' cs
  let (_, cs) ← field? 2 0 59 cs
  match cs with
  | '.' :: rest =>
    let (ds, after) := rest.span Char.isDigit
    some (if ds.isEmpty then cs else after)
  | _ => some cs

/-- The offset after a time, if one is written. -/
def offset (cs : List Char) : List Char :=
  match cs with
  | 'Z' :: rest => rest
  | 'z' :: rest => rest
  | c :: rest =>
    if c == '+' || c == '-' then
      let read : Option (List Char) := do
        let (_, rest) ← field? 2 0 23 rest
        let rest ← expect? ':' rest
        let (_, rest) ← field? 2 0 59 rest
        some rest
      read.getD cs
    else cs
  | [] => []

/-- The number of days of a month. -/
def monthLength (year month : Nat) : Nat :=
  if month = 2 then if year % 4 = 0 && (year % 100 != 0 || year % 400 = 0) then 29 else 28
  else if month = 4 ∨ month = 6 ∨ month = 9 ∨ month = 11 then 30
  else 31

/-- A date with or without a time: nothing if the text has another form, an inner `none` if there is no such day. -/
def date? (cs : List Char) : Option (Option (List Char)) := do
  let (year, rest) ← field? 4 0 9999 cs
  let rest ← expect? '-' rest
  let (month, rest) ← field? 2 1 12 rest
  let rest ← expect? '-' rest
  let (day, rest) ← field? 2 1 31 rest
  let after := match rest with
    | c :: more => if c == 'T' || c == 't' || c == ' ' then ((time? more).map offset).getD rest else rest
    | [] => []
  some (if year = 0 || monthLength year month < day then none else some after)

/-- Digits of one base with single underscores between them, the first digit given separately. -/
def moreDigits (digit : Char → Bool) : List Char → List Char → List Char × List Char
  | acc, '_' :: c :: rest => if digit c then moreDigits digit (c :: acc) rest else (acc.reverse, '_' :: c :: rest)
  | acc, c :: rest => if digit c then moreDigits digit (c :: acc) rest else (acc.reverse, c :: rest)
  | acc, [] => (acc.reverse, [])

/-- A run of digits that begins with a digit. -/
def run? (digit : Char → Bool) : List Char → Option (List Char × List Char)
  | c :: rest => if digit c then some (moreDigits digit [c] rest) else none
  | [] => none

/-- A number with a base mark. -/
def basedNumber? (cs : List Char) : Option (Document × List Char) :=
  let read (base : Nat) (rest : List Char) : Option (Document × List Char) := do
    let isOf := fun c => ((Number.digitValue? c).map (decide <| · < base)).getD false
    let (ds, rest) ← run? isOf rest
    let n ← Number.ofDigitsIn? base ds
    some (.int n, rest)
  match cs with
  | '0' :: 'x' :: rest => read 16 rest
  | '0' :: 'b' :: rest => read 2 rest
  | '0' :: 'o' :: rest => read 8 rest
  | _ => none

/-- A decimal number. -/
def decimalNumber? (cs : List Char) : Option (Document × List Char) := do
  let (negative, body) := match cs with
    | '-' :: rest => (true, rest)
    | '+' :: rest => (false, rest)
    | _ => (false, cs)
  let (whole, rest) ← match body with
    | '0' :: rest => some (['0'], rest)
    | _ => run? Char.isDigit body
  let (fraction, rest) := match rest with
    | '.' :: more => (run? Char.isDigit more).getD ([], rest)
    | _ => ([], rest)
  let power : Option (Int × List Char) := match rest with
    | c :: more =>
      if c == 'e' || c == 'E' then
        let (down, more) := match more with
          | '-' :: more => (true, more)
          | '+' :: more => (false, more)
          | _ => (false, more)
        (run? Char.isDigit more).map fun (ds, rest) =>
          let n : Int := Number.ofDigits ds
          (if down then -n else n, rest)
      else none
    | [] => none
  if fraction.isEmpty && power.isNone then
    let n : Int := Number.ofDigits whole
    some (.int (if negative then -n else n), rest)
  else
    let (e, rest) := power.getD (0, rest)
    let x := Number.ofParts whole fraction e
    some (.float (if negative then -x else x), rest)

/-- A word value: a truth value or a special number. -/
def word? (cs : List Char) : Option (Document × List Char) :=
  let table : List (String × Document) :=
    [("true", .bool true), ("false", .bool false), ("inf", .float (1.0 / 0.0)), ("+inf", .float (1.0 / 0.0)),
     ("-inf", .float (-1.0 / 0.0)), ("nan", .float (0.0 / 0.0)), ("+nan", .float (0.0 / 0.0)),
     ("-nan", .float (0.0 / 0.0))]
  (table.find? fun e => e.1.toList.isPrefixOf cs).map fun e => (e.2, cs.drop e.1.length)

/-- A value that is neither a text, an array nor an inline table. -/
def plain? (cs : List Char) : Option (Document × List Char) :=
  match date? cs with
  | some (some rest) => some (.moment (String.ofList (cs.take (cs.length - rest.length))), rest)
  | some none => none
  | none =>
    match time? cs with
    | some rest => some (.moment (String.ofList (cs.take (cs.length - rest.length))), rest)
    | none => (basedNumber? cs).or ((decimalNumber? cs).or (word? cs))

mutual

/-- One value. -/
def value? : (fuel : Nat) → List Char → Option (Document × List Char)
  | 0, _ => none
  | fuel + 1, cs =>
    match cs with
    | '"' :: '"' :: '"' :: rest => do
      let (s, rest) ← basicText? true (rest.length + 1) [] (dropFirstLineEnd rest)
      let (s, rest) := extraQuotes '"' s rest
      some (.str s, rest)
    | '"' :: rest => (basicText? false (rest.length + 1) [] rest).map fun (s, rest) => (.str s, rest)
    | '\'' :: '\'' :: '\'' :: rest => do
      let (s, rest) ← rawLines? [] (dropFirstLineEnd rest)
      let (s, rest) := extraQuotes '\'' s rest
      some (.str s, rest)
    | '\'' :: rest => (rawText? rest).map fun (s, rest) => (.str s, rest)
    | '[' :: rest => do
      match ← skipLines? (rest.length + 1) rest with
      | ']' :: rest => some (.list [], rest)
      | rest =>
        let (xs, rest) ← items? fuel [] rest
        some (.list xs, rest)
    | '{' :: rest =>
      match skip rest with
      | '}' :: rest => some (.table [], rest)
      | rest => do
        let (es, rest) ← members? fuel [] rest
        some (.table (documentEntries es), rest)
    | _ => plain? cs

/-- The items of an array up to its closing bracket; a comma may stand after the last. -/
def items? : (fuel : Nat) → List Document → List Char → Option (List Document × List Char)
  | 0, _, _ => none
  | fuel + 1, acc, cs => do
    let (v, rest) ← value? fuel cs
    match ← skipLines? (rest.length + 1) rest with
    | ']' :: rest => some ((v :: acc).reverse, rest)
    | ',' :: rest =>
      match ← skipLines? (rest.length + 1) rest with
      | ']' :: rest => some ((v :: acc).reverse, rest)
      | rest => items? fuel (v :: acc) rest
    | _ => none

/-- The entries of an inline table up to its closing brace. -/
def members? : (fuel : Nat) → Entries Node → List Char → Option (Entries Node × List Char)
  | 0, _, _ => none
  | fuel + 1, acc, cs => do
    let (key, rest) ← key? (cs.length + 1) cs
    let rest ← expect? '=' rest
    let (v, rest) ← value? fuel (skip rest)
    let acc ← assign 0 key v acc
    match skip rest with
    | '}' :: rest => some (acc, rest)
    | ',' :: rest => members? fuel acc (skip rest)
    | _ => none

end

/-- The table under construction, the header it is written under, and the number of headers so far. -/
structure Progress where
  tree : Entries Node
  header : List String
  part : Nat

/-- One statement at the start of a line, blanks dropped. -/
def statement? (p : Progress) (cs : List Char) : Option (Progress × List Char) :=
  match cs with
  | '[' :: '[' :: rest => do
    let (key, rest) ← key? (rest.length + 1) (skip rest)
    let tree ← alterAt (appendKey (key.getLast?.getD "")) key.dropLast p.tree
    let rest ← expect? ']' rest
    let rest ← expect? ']' rest
    some (⟨tree, key, p.part + 1⟩, rest)
  | '[' :: rest => do
    let (key, rest) ← key? (rest.length + 1) (skip rest)
    let tree ← alterAt (declareKey (key.getLast?.getD "")) key.dropLast p.tree
    let rest ← expect? ']' rest
    some (⟨tree, key, p.part + 1⟩, rest)
  | '#' :: _ => some (p, cs)
  | _ => do
    let (key, rest) ← key? (cs.length + 1) cs
    let rest ← expect? '=' rest
    let (v, rest) ← value? (rest.length + 1) (skip rest)
    let tree ← alterAt (assign p.part key v) p.header p.tree
    some ({ p with tree := tree }, rest)

/-- The statements of a text, one to a line. -/
def statements? : (fuel : Nat) → Progress → List Char → Option Progress
  | 0, _, _ => none
  | fuel + 1, p, cs =>
    match skip cs with
    | [] => some p
    | '\n' :: rest => statements? fuel p rest
    | cs => do
      let (p, rest) ← statement? p cs
      match ← skipComment? (skip rest) with
      | [] => some p
      | '\n' :: rest => statements? fuel p rest
      | _ => none

/-- Line ends of two characters become one. -/
def joinLineEnds : List Char → List Char
  | '\r' :: '\n' :: rest => '\n' :: joinLineEnds rest
  | c :: rest => c :: joinLineEnds rest
  | [] => []

/-- Reads a whole text. -/
def read? (s : String) : Option Document :=
  let cs := joinLineEnds s.toList
  (statements? (cs.length + 1) ⟨[], [], 1⟩ cs).map fun p => .table (documentEntries p.tree)

end Amalgam.Document.Toml
