import Amalgam.Document
import Amalgam.Document.Number
import Amalgam.Text.Quoted

/-!
JSON texts, read into documents and written from them.

The reader is strict about the grammar, except that it takes `NaN`, `Infinity` and `-Infinity`; of two entries with one
key the last value stands in the first one's place.
-/

namespace Amalgam.Document.Json

open Amalgam.Text.Quoted (hexDigits)

/-- Drops blanks, tabs and line ends. -/
def skip (cs : List Char) : List Char := cs.dropWhile fun c => c == ' ' || c == '\t' || c == '\n' || c == '\r'

/-- A code point; halves of a surrogate pair that stand alone are replaced. -/
def charOf (n : Nat) : Char := if 0xD800 ≤ n && n < 0xE000 then Char.ofNat 0xFFFD else Char.ofNat n

/-- Four digits of base sixteen. -/
def hexFour? : List Char → Option (Nat × List Char)
  | a :: b :: c :: d :: rest => (Number.ofDigitsIn? 16 [a, b, c, d]).map fun n => (n, rest)
  | _ => none

/-- The character after a backslash, `u` apart. -/
def shortEscape? : Char → Option Char
  | '"' => some '"'
  | '\\' => some '\\'
  | '/' => some '/'
  | 'b' => some '\x08'
  | 'f' => some '\x0c'
  | 'n' => some '\n'
  | 'r' => some '\r'
  | 't' => some '\t'
  | _ => none

/-- The rest of a text after its opening quote. -/
def text? : (fuel : Nat) → List Char → List Char → Option (String × List Char)
  | 0, _, _ => none
  | _ + 1, acc, '"' :: rest => some (String.ofList acc.reverse, rest)
  | fuel + 1, acc, '\\' :: 'u' :: rest => do
    let (high, rest) ← hexFour? rest
    if 0xD800 ≤ high && high < 0xDC00 then
      match rest with
      | '\\' :: 'u' :: more =>
        match hexFour? more with
        | some (low, after) =>
          if 0xDC00 ≤ low && low < 0xE000 then
            text? fuel (Char.ofNat (0x10000 + (high - 0xD800) * 0x400 + (low - 0xDC00)) :: acc) after
          else text? fuel (charOf high :: acc) rest
        | none => none
      | _ => text? fuel (charOf high :: acc) rest
    else text? fuel (charOf high :: acc) rest
  | fuel + 1, acc, '\\' :: c :: rest => (shortEscape? c).bind fun e => text? fuel (e :: acc) rest
  | fuel + 1, acc, c :: rest => if c.toNat < 32 || c == '\\' then none else text? fuel (c :: acc) rest
  | _ + 1, _, [] => none

/-- Splits off the leading decimal digits. -/
def digits (cs : List Char) : List Char × List Char := cs.span Char.isDigit

/-- The exponent of a number, if one is written. -/
def exponent? : List Char → Option (Int × List Char)
  | c :: rest =>
    if c == 'e' || c == 'E' then
      let (negative, body) := match rest with
        | '-' :: more => (true, more)
        | '+' :: more => (false, more)
        | _ => (false, rest)
      let (ds, after) := digits body
      if ds.isEmpty then none
      else
        let n : Int := Number.ofDigits ds
        some (if negative then -n else n, after)
    else none
  | [] => none

/-- A number after its sign. -/
def number? (negative : Bool) (cs : List Char) : Option (Document × List Char) :=
  let (whole, rest) : List Char × List Char := match cs with
    | '0' :: rest => (['0'], rest)
    | _ => digits cs
  if whole.isEmpty then none
  else
    let (fraction, rest) : List Char × List Char := match rest with
      | '.' :: more =>
        let (ds, after) := digits more
        if ds.isEmpty then ([], rest) else (ds, after)
      | _ => ([], rest)
    let power := exponent? rest
    if fraction.isEmpty && power.isNone then
      let n : Int := Number.ofDigits whole
      if whole.length > 4300 then none else some (.int (if negative then -n else n), rest)
    else
      let (e, rest) := power.getD (0, rest)
      let x := Number.ofParts whole fraction e
      some (.float (if negative then -x else x), rest)

/-- Drops an expected word. -/
def word? (word : String) (cs : List Char) : Option (List Char) :=
  if word.toList.isPrefixOf cs then some (cs.drop word.length) else none

mutual

/-- One document, blanks in front allowed. -/
def value? : (fuel : Nat) → List Char → Option (Document × List Char)
  | 0, _ => none
  | fuel + 1, cs =>
    match skip cs with
    | '"' :: rest => (text? (rest.length + 1) [] rest).map fun (s, rest) => (.str s, rest)
    | '[' :: rest =>
      match skip rest with
      | ']' :: rest => some (.list [], rest)
      | rest => (items? fuel [] rest).map fun (xs, rest) => (.list xs, rest)
    | '{' :: rest =>
      match skip rest with
      | '}' :: rest => some (.table [], rest)
      | rest => (members? fuel [] rest).map fun (es, rest) => (.table es, rest)
    | '-' :: 'I' :: rest => (word? "nfinity" rest).map fun rest => (.float (-1.0 / 0.0), rest)
    | '-' :: rest => number? true rest
    | 'n' :: rest => (word? "ull" rest).map fun rest => (.null, rest)
    | 't' :: rest => (word? "rue" rest).map fun rest => (.bool true, rest)
    | 'f' :: rest => (word? "alse" rest).map fun rest => (.bool false, rest)
    | 'N' :: rest => (word? "aN" rest).map fun rest => (.float (0.0 / 0.0), rest)
    | 'I' :: rest => (word? "nfinity" rest).map fun rest => (.float (1.0 / 0.0), rest)
    | rest => number? false rest

/-- The items of a list up to its closing bracket, the earlier ones reversed. -/
def items? : (fuel : Nat) → List Document → List Char → Option (List Document × List Char)
  | 0, _, _ => none
  | fuel + 1, acc, cs => do
    let (v, rest) ← value? fuel cs
    match skip rest with
    | ',' :: rest => items? fuel (v :: acc) rest
    | ']' :: rest => some ((v :: acc).reverse, rest)
    | _ => none

/-- The entries of a table up to its closing brace. -/
def members? : (fuel : Nat) → Entries Document → List Char → Option (Entries Document × List Char)
  | 0, _, _ => none
  | fuel + 1, acc, cs => do
    match skip cs with
    | '"' :: rest =>
      let (key, rest) ← text? (rest.length + 1) [] rest
      match skip rest with
      | ':' :: rest =>
        let (v, rest) ← value? fuel rest
        match skip rest with
        | ',' :: rest => members? fuel (acc.put key v) rest
        | '}' :: rest => some (acc.put key v, rest)
        | _ => none
      | _ => none
    | _ => none

end

/-- Reads a whole text. -/
def read? (s : String) : Option Document :=
  let cs := s.toList
  match value? (cs.length + 1) cs with
  | some (d, rest) => if (skip rest).isEmpty then some d else none
  | none => none

/-- One character of a written text. -/
def writeChar (asciiOnly : Bool) (c : Char) : List Char :=
  if c == '"' || c == '\\' then ['\\', c]
  else if c == '\n' then ['\\', 'n']
  else if c == '\r' then ['\\', 'r']
  else if c == '\t' then ['\\', 't']
  else if c == '\x08' then ['\\', 'b']
  else if c == '\x0c' then ['\\', 'f']
  else if c.toNat < 32 then '\\' :: 'u' :: hexDigits 4 c.toNat
  else if !asciiOnly || c.toNat < 127 then [c]
  else if c.toNat < 0x10000 then '\\' :: 'u' :: hexDigits 4 c.toNat
  else
    let n := c.toNat - 0x10000
    '\\' :: 'u' :: hexDigits 4 (0xD800 + n / 0x400) ++ '\\' :: 'u' :: hexDigits 4 (0xDC00 + n % 0x400)

/-- A written text with its quotes. -/
def writeText (asciiOnly : Bool) (s : String) : String :=
  String.ofList ('"' :: s.toList.flatMap (writeChar asciiOnly) ++ ['"'])

/-- The text of a number or word. -/
def writeAtom (asciiOnly : Bool) : Document → String
  | .null => "null"
  | .bool b => if b then "true" else "false"
  | .int i => toString i
  | .float x => { Text.Decimal.Style.values with notANumber := "NaN", infinite := "Infinity" }.text x
  | .str s => writeText asciiOnly s
  | .moment s => writeText asciiOnly s
  | .list _ => "[]"
  | .table _ => "\x7b\x7d"

mutual

/-- A document over several lines, two more blanks per level; empty lists and tables stay on one line. -/
def writeIndented (asciiOnly : Bool) (indent : String) : Document → String
  | .list (x :: xs) =>
    let inner := indent ++ "  "
    "[\n" ++ String.intercalate ",\n" (writeItems asciiOnly inner (x :: xs)) ++ "\n" ++ indent ++ "]"
  | .table (e :: es) =>
    let inner := indent ++ "  "
    "\x7b\n" ++ String.intercalate ",\n" (writeEntries asciiOnly inner (e :: es)) ++ "\n" ++ indent ++ "\x7d"
  | d => writeAtom asciiOnly d

/-- The lines of list items. -/
def writeItems (asciiOnly : Bool) (indent : String) : List Document → List String
  | [] => []
  | x :: xs => (indent ++ writeIndented asciiOnly indent x) :: writeItems asciiOnly indent xs

/-- The lines of table entries. -/
def writeEntries (asciiOnly : Bool) (indent : String) : List (String × Document) → List String
  | [] => []
  | (k, v) :: es =>
    (indent ++ writeText asciiOnly k ++ ": " ++ writeIndented asciiOnly indent v) :: writeEntries asciiOnly indent es

end

mutual

/-- A document on one line. -/
def writeCompact : Document → String
  | .list xs => "[" ++ String.intercalate "," (compactItems xs) ++ "]"
  | .table es => "\x7b" ++ String.intercalate "," (compactEntries es) ++ "\x7d"
  | d => writeAtom true d

/-- The texts of list items. -/
def compactItems : List Document → List String
  | [] => []
  | x :: xs => writeCompact x :: compactItems xs

/-- The texts of table entries. -/
def compactEntries : List (String × Document) → List String
  | [] => []
  | (k, v) :: es => (writeText true k ++ ":" ++ writeCompact v) :: compactEntries es

end

end Amalgam.Document.Json
