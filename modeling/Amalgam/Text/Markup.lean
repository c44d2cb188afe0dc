import Amalgam.Text.CharSet

/-!
Markup of console texts: tags in square brackets, and the escaping of what only looks like one.

A tag is an opening bracket, a small letter or one of `#/@`, and anything but an opening bracket up to the first closing
bracket. An odd number of backslashes in front makes it plain text. `escape` writes a text so that no part of it is a tag.
-/

namespace Amalgam.Text.Markup

/-- What may follow the opening bracket of a tag. -/
def opensTag (c : Char) : Bool := ('a' ≤ c && c ≤ 'z') || c == '#' || c == '/' || c == '@'

/-- Whether a closing bracket comes before any opening one. -/
def closes : List Char → Bool
  | [] => false
  | c :: rest => if c == ']' then true else if c == '[' then false else closes rest

/-- Whether the text after an opening bracket makes it a tag. -/
def isTag : List Char → Bool
  | c :: rest => opensTag c && closes rest
  | [] => false

/-- Escapes a text; the state is whether a tag is being copied, and how many backslashes stand before the next character. -/
def escapeFrom : Bool → Nat → List Char → List Char
  | _, n, [] => List.replicate n '\\'
  | true, _, c :: rest => c :: escapeFrom (c != ']') 0 rest
  | false, n, c :: rest =>
    if c == '\\' then escapeFrom false (n + 1) rest
    else if c == '[' && isTag rest then List.replicate (2 * n + 1) '\\' ++ c :: escapeFrom true 0 rest
    else List.replicate n '\\' ++ c :: escapeFrom false 0 rest

/-- A single backslash at the end would escape what is put behind the text, so it is doubled. -/
def closeEnd (cs : List Char) : List Char :=
  match cs.reverse with
  | '\\' :: '\\' :: _ => cs
  | '\\' :: _ => cs ++ ['\\']
  | _ => cs

/-- The text with every tag in it made plain. -/
def escape (s : String) : String := String.ofList (closeEnd (escapeFrom false 0 s.toList))

/-- A part of a marked text. -/
inductive Piece where
  | plain (text : List Char)
  | opening (name : String)
  | closing (name : String)

/-- Characters that never reach a console. -/
def isControl (c : Char) : Bool := c == '\x07' || c == '\x08' || c == '\x0b' || c == '\x0c' || c == '\r'

/-- An escaped bracket that opens no tag. -/
def openBrackets : List Char → List Char
  | '\\' :: '[' :: rest => '[' :: openBrackets rest
  | c :: rest => c :: openBrackets rest
  | [] => []

/-- The short names of styles. -/
def fullStyle (word : String) : String :=
  match word with
  | "b" => "bold"
  | "d" => "dim"
  | "i" => "italic"
  | "u" => "underline"
  | "r" => "reverse"
  | "s" => "strike"
  | "o" => "overline"
  | "c" => "conceal"
  | "uu" => "underline2"
  | w => w

/-- Styles are compared word by word, without regard to case and to short names. -/
def styleName (name : List Char) : String :=
  let words := (splitList isBlank (name.map Char.toLower)).filter fun w => !w.isEmpty
  String.intercalate " " (words.map fun w => fullStyle (String.ofList w))

/-- The part that the inside of a tag stands for. -/
def pieceOf (inside : List Char) : Piece :=
  let name := inside.takeWhile (· != '=')
  match name with
  | '/' :: name => .closing (styleName name)
  | name => .opening (styleName name)

/-- Splits a marked text; `held` is the plain text before, reversed, and `n` the backslashes right before. -/
def pieces : Option (List Char) → List Char → Nat → List Char → List Piece
  | none, held, n, [] => [.plain (held.reverse ++ List.replicate n '\\')]
  | some inside, held, _, [] => [.plain (held.reverse ++ inside.reverse)]
  | some inside, held, n, c :: rest =>
    if c == ']' then .plain held.reverse :: pieceOf inside.reverse :: pieces none [] 0 rest
    else pieces (some (c :: inside)) held n rest
  | none, held, n, c :: rest =>
    if c == '\\' then pieces none held (n + 1) rest
    else if c == '[' && isTag rest && n % 2 == 0 then pieces (some []) (List.replicate (n / 2) '\\' ++ held) 0 rest
    else if c == '[' && isTag rest then pieces none (c :: (List.replicate (n / 2) '\\' ++ held)) 0 rest
    else pieces none (c :: (List.replicate n '\\' ++ held)) 0 rest

/-- The plain text of the parts, if every closing tag closes an open one. -/
def render? : List String → List Piece → Option (List Char)
  | _, [] => some []
  | stack, .plain t :: rest => (render? stack rest).map (openBrackets t ++ ·)
  | stack, .opening name :: rest => render? (name :: stack) rest
  | stack, .closing name :: rest =>
    if name.isEmpty then
      match stack with
      | [] => none
      | _ :: stack => render? stack rest
    else if stack.contains name then render? (stack.erase name) rest
    else none

/-- The text that a marked text shows, if its tags match. -/
def plain? (s : String) : Option String :=
  (render? [] (pieces none [] 0 s.toList)).map fun cs => String.ofList (cs.filter fun c => !isControl c)

end Amalgam.Text.Markup
