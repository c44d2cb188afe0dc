import Amalgam.Document.Number
import Amalgam.Literal.Trivia
import Amalgam.Text.CharName
import Amalgam.Value

/-!
The tokens of literals that carry a value: numbers, texts and byte strings.
-/

namespace Amalgam.Literal

open Amalgam.Document.Number (digitValue? ofDigits ofDigitsIn? ofParts)

/-- Whether a character would continue a name; a number may not run into one. -/
def runsOn : List Char → Bool
  | c :: _ => c.isAlphanum || c == '_' || c.toNat ≥ 128
  | [] => false

/-- Digits with single underscores between them, the first one given; nothing if an underscore stands alone. -/
def digitRun? (digit : Char → Bool) : List Char → List Char → Option (List Char × List Char)
  | acc, '_' :: c :: rest => if digit c then digitRun? digit (c :: acc) rest else none
  | acc, c :: rest =>
    if c == '_' then none
    else if digit c then digitRun? digit (c :: acc) rest
    else some (acc.reverse, c :: rest)
  | acc, [] => some (acc.reverse, [])

/-- A run that begins with a digit. -/
def digits? (digit : Char → Bool) : List Char → Option (List Char × List Char)
  | c :: rest => if digit c then digitRun? digit [c] rest else none
  | [] => none

/-- A whole number with a base mark; an underscore may follow the mark. -/
def basedNumber? (base : Nat) (cs : List Char) : Option (Value × List Char) := do
  let cs := match cs with
    | '_' :: rest => rest
    | _ => cs
  let isOf := fun c => ((digitValue? c).map fun d => decide (d < base)).getD false
  let (ds, rest) ← digits? isOf cs
  let n ← ofDigitsIn? base ds
  if runsOn rest then none else some (.int n, rest)

/-- The exponent of a number: nothing if none is written, an inner `none` if it is malformed. -/
def power? : List Char → Option (Option (Int × List Char))
  | c :: rest =>
    if c == 'e' || c == 'E' then
      let (down, body) := match rest with
        | '-' :: more => (true, more)
        | '+' :: more => (false, more)
        | _ => (false, rest)
      some ((digits? Char.isDigit body).map fun (ds, rest) =>
        let n : Int := ofDigits ds
        (if down then -n else n, rest))
    else none
  | [] => none

/-- A decimal number. Leading zeros are for numbers with a point, an exponent or an imaginary mark, and for zero. -/
def decimalNumber? (cs : List Char) : Option (Value × List Char) := do
  let (whole, rest) ← match cs with
    | '.' :: _ => some ([], cs)
    | _ => digits? Char.isDigit cs
  let (pointed, fraction, rest) ← match rest with
    | '.' :: c :: more =>
      if c.isDigit then (digits? Char.isDigit (c :: more)).map fun (ds, rest) => (true, ds, rest)
      else some (true, [], c :: more)
    | '.' :: [] => some (true, [], [])
    | _ => some (false, [], rest)
  if whole.isEmpty && fraction.isEmpty then none
  else
    let (exponent, scaled, rest) ← match power? rest with
      | none => some ((0 : Int), false, rest)
      | some none => none
      | some (some (e, rest)) => some (e, true, rest)
    match rest with
    | 'j' :: rest => if runsOn rest then none else some (.complex 0.0 (ofParts whole fraction exponent), rest)
    | 'J' :: rest => if runsOn rest then none else some (.complex 0.0 (ofParts whole fraction exponent), rest)
    | _ =>
      if runsOn rest then none
      else if pointed || scaled then some (.float (ofParts whole fraction exponent), rest)
      else
        let n := ofDigits whole
        if n = 0 then some (.int 0, rest)
        else if whole.head? = some '0' || whole.length > 4300 then none
        else some (.int n, rest)

/-- A number. -/
def number? (cs : List Char) : Option (Value × List Char) :=
  match cs with
  | '0' :: 'x' :: rest => basedNumber? 16 rest
  | '0' :: 'X' :: rest => basedNumber? 16 rest
  | '0' :: 'o' :: rest => basedNumber? 8 rest
  | '0' :: 'O' :: rest => basedNumber? 8 rest
  | '0' :: 'b' :: rest => basedNumber? 2 rest
  | '0' :: 'B' :: rest => basedNumber? 2 rest
  | _ => decimalNumber? cs

/-- What the marks in front of a quote say. -/
structure Marks where
  isRaw : Bool
  isBytes : Bool

/-- The marks in front of a quote, and the text from the quote on. -/
def marks? (cs : List Char) : Option (Marks × List Char) :=
  let front := (cs.takeWhile fun c => c != '\'' && c != '"').map Char.toLower
  let rest := cs.dropWhile fun c => c != '\'' && c != '"'
  if rest.isEmpty then none
  else if front.isEmpty || front = ['u'] then some (⟨false, false⟩, rest)
  else if front = ['r'] then some (⟨true, false⟩, rest)
  else if front = ['b'] then some (⟨false, true⟩, rest)
  else if front = ['b', 'r'] || front = ['r', 'b'] then some (⟨true, true⟩, rest)
  else none

/-- The characters up to the closing quotes, escapes unread: one quote on one line, or three quotes. -/
def body? (quote : Char) (triple : Bool) : List Char → List Char → Option (List Char × List Char)
  | acc, '\\' :: '\r' :: '\n' :: rest => body? quote triple ('\n' :: '\r' :: '\\' :: acc) rest
  | acc, '\\' :: c :: rest => body? quote triple (c :: '\\' :: acc) rest
  | acc, c :: rest =>
    if c == quote then
      if triple then
        match rest with
        | d :: e :: more =>
          if d == quote && e == quote then some (acc.reverse, more) else body? quote triple (c :: acc) (d :: e :: more)
        | _ => none
      else some (acc.reverse, rest)
    else if isLineEnd c && !triple then none
    else body? quote triple (c :: acc) rest
  | _, [] => none

/-- Line ends within a text are single line feeds. -/
def joinLineEnds : List Char → List Char
  | '\r' :: '\n' :: rest => '\n' :: joinLineEnds rest
  | '\r' :: rest => '\n' :: joinLineEnds rest
  | c :: rest => c :: joinLineEnds rest
  | [] => []

/-- A character by its code; a lone half of a surrogate pair is replaced. -/
def charOf (n : Nat) : Char := if 0xD800 ≤ n && n < 0xE000 then Char.ofNat 0xFFFD else Char.ofNat n

/-- The code written with exactly `width` digits of base sixteen. -/
def code? (width : Nat) (cs : List Char) : Option (Nat × List Char) :=
  if (cs.take width).length = width then (ofDigitsIn? 16 (cs.take width)).map fun n => (n, cs.drop width) else none

def isOctal (c : Char) : Bool := '0' ≤ c && c ≤ '7'

/-- The escapes of one letter. -/
def letterEscape? : Char → Option Nat
  | '\\' => some 92
  | '\'' => some 39
  | '"' => some 34
  | 'a' => some 7
  | 'b' => some 8
  | 'f' => some 12
  | 'n' => some 10
  | 'r' => some 13
  | 't' => some 9
  | 'v' => some 11
  | _ => none

/-- The codes of a text with escapes; an unknown escape stands for itself, a malformed one spoils the text. -/
def unescape? (isBytes : Bool) : (fuel : Nat) → List Char → Option (List Nat)
  | 0, _ => none
  | _ + 1, [] => some []
  | fuel + 1, '\\' :: c :: rest =>
    if c == '\n' then unescape? isBytes fuel rest
    else if isOctal c then
      let ds := (c :: rest.take 2).takeWhile isOctal
      let n := ds.foldl (fun n d => 8 * n + (d.toNat - 48)) 0
      (unescape? isBytes fuel ((c :: rest).drop ds.length)).map ((if isBytes then n % 256 else n) :: ·)
    else if c == 'x' then do
      let (n, rest) ← code? 2 rest
      (unescape? isBytes fuel rest).map (n :: ·)
    else if c == 'u' && !isBytes then do
      let (n, rest) ← code? 4 rest
      (unescape? isBytes fuel rest).map (n :: ·)
    else if c == 'U' && !isBytes then do
      let (n, rest) ← code? 8 rest
      if n < 0x110000 then (unescape? isBytes fuel rest).map (n :: ·) else none
    else if c == 'N' && !isBytes then
      match rest with
      | '{' :: more => do
        let named ← Text.CharName.find? (String.ofList (more.takeWhile (· != '}')))
        match more.dropWhile (· != '}') with
        | _ :: rest => (unescape? isBytes fuel rest).map (named.toNat :: ·)
        | [] => none
      | _ => none
    else
      match letterEscape? c with
      | some n => (unescape? isBytes fuel rest).map (n :: ·)
      | none => (unescape? isBytes fuel rest).map (92 :: c.toNat :: ·)
  | fuel + 1, c :: rest => (unescape? isBytes fuel rest).map (c.toNat :: ·)

/-- The characters between the quotes at the front, escapes unread, and the text behind them. -/
def between? : List Char → Option (List Char × List Char)
  | a :: b :: c :: more =>
    if a == b && b == c then body? a true [] more else body? a false [] (b :: c :: more)
  | a :: more => body? a false [] more
  | [] => none

/-- The value that characters between quotes have; byte strings hold ASCII only. -/
def quotedValue? (marks : Marks) (raw : List Char) : Option Value :=
  if marks.isBytes && raw.any fun c => c.toNat ≥ 128 then none
  else
    let codes := if marks.isRaw then some (raw.map Char.toNat) else unescape? marks.isBytes (raw.length + 1) raw
    codes.map fun codes => if marks.isBytes then .bytes codes else .str (String.ofList (codes.map charOf))

/-- One quoted text or byte string. -/
def quoted? (cs : List Char) : Option (Value × List Char) := do
  let (marks, rest) ← marks? cs
  let (raw, rest) ← between? rest
  let v ← quotedValue? marks (joinLineEnds raw)
  some (v, rest)

/-- Adjacent texts form one, and so do adjacent byte strings; the two do not mix. -/
def joinQuoted? : Value → Value → Option Value
  | .str a, .str b => some (.str (a ++ b))
  | .bytes a, .bytes b => some (.bytes (a ++ b))
  | _, _ => none

/-- Whether a quoted token begins here. -/
def startsQuoted (cs : List Char) : Bool :=
  match cs with
  | a :: b :: c :: _ =>
    a == '\'' || a == '"' || (a.isAlpha && (b == '\'' || b == '"')) ||
      (a.isAlpha && b.isAlpha && (c == '\'' || c == '"'))
  | [a, b] => a == '\'' || a == '"' || (a.isAlpha && (b == '\'' || b == '"'))
  | _ => false

end Amalgam.Literal
