import Amalgam.Text.CharSet

/-!
Quoted texts: a text between quotes with escapes, such that it can be read back.

A text is put between single quotes unless it holds a single quote and no double quote. The backslash, the chosen
quote, tab, line feed and carriage return have short escapes; other characters that do not print are written by code.
-/

namespace Amalgam.Text.Quoted

/-- The lower case digit of base sixteen. -/
def hexDigit (n : Nat) : Char :=
  if n < 10 then Char.ofNat (48 + n) else Char.ofNat (87 + n)

/-- `width` digits of base sixteen, the most significant first. -/
def hexDigits : (width : Nat) → Nat → List Char
  | 0, _ => []
  | width + 1, n => hexDigits width (n / 16) ++ [hexDigit (n % 16)]

theorem length_hexDigits (width n : Nat) : (hexDigits width n).length = width := by
  induction width generalizing n with
  | zero => rfl
  | succ width ih => simp [hexDigits, ih]

/-- The shortest code escape of a character: two, four or eight digits. -/
def codeEscape (n : Nat) : List Char :=
  if n < 0x100 then '\\' :: 'x' :: hexDigits 2 n
  else if n < 0x10000 then '\\' :: 'u' :: hexDigits 4 n
  else '\\' :: 'U' :: hexDigits 8 n

/-- One character inside the given quotes. -/
def escapeChar (quote c : Char) : List Char :=
  if c == quote || c == '\\' then ['\\', c]
  else if c == '\t' then ['\\', 't']
  else if c == '\n' then ['\\', 'n']
  else if c == '\r' then ['\\', 'r']
  else if isPrintable c then [c]
  else codeEscape c.toNat

/-- The quote chosen for a text: double only if it holds a single quote and no double one. -/
def quoteFor (cs : List Char) : Char :=
  if cs.contains '\'' && !cs.contains '"' then '"' else '\''

/-- The quoted form of a text. -/
def quote (s : String) : String :=
  let q := quoteFor s.toList
  String.ofList (q :: s.toList.flatMap (escapeChar q) ++ [q])

/-- One byte inside the given quotes; bytes beyond ASCII are always written by code. -/
def escapeByte (quote : Char) (b : Nat) : List Char :=
  let c := Char.ofNat b
  if c == quote || c == '\\' then ['\\', c]
  else if c == '\t' then ['\\', 't']
  else if c == '\n' then ['\\', 'n']
  else if c == '\r' then ['\\', 'r']
  else if 32 ≤ b && b < 127 then [c]
  else '\\' :: 'x' :: hexDigits 2 b

/-- The quoted form of a byte string. -/
def quoteBytes (bytes : List Nat) : String :=
  let q := quoteFor (bytes.map Char.ofNat)
  String.ofList ('b' :: q :: bytes.flatMap (escapeByte q) ++ [q])

end Amalgam.Text.Quoted
