import Amalgam.Literal

/-!
Literals inside generated code.

A literal is put into code as it was written. Line ends within its brackets are followed by the indentation of the
block; within quotes they are not.
-/

namespace Amalgam.Source.Layout

open Amalgam.Literal (isLineEnd lineEnd?)

/-- Where the reading of a literal stands. -/
inductive Mode where
  | code
  | comment
  | quoted (mark : Char)
  | tripled (mark : Char)

/-- The first line end of a text: the one that is written as a plain line feed. -/
def firstLineEnd : List Char → List Char
  | '\r' :: '\n' :: _ => ['\r', '\n']
  | c :: rest => if isLineEnd c then [c] else firstLineEnd rest
  | [] => ['\n']

/-- A line end as it is written. -/
def writtenLineEnd (plain found : List Char) : List Char := if found = plain then ['\n'] else found

/-- Writes a literal, given its plain line end and the indentation, from a mode and a number of open brackets on. -/
def layout (plain indent : List Char) : Mode → Nat → List Char → List Char
  | _, _, [] => []
  | .quoted m, n, '\\' :: c :: rest => '\\' :: c :: layout plain indent (.quoted m) n rest
  | .quoted m, n, c :: rest => c :: layout plain indent (if c == m then .code else .quoted m) n rest
  | .tripled m, n, '\\' :: c :: rest => '\\' :: c :: layout plain indent (.tripled m) n rest
  | .tripled m, n, a :: b :: c :: rest =>
    if a == m && b == m && c == m then a :: b :: c :: layout plain indent .code n rest
    else a :: layout plain indent (.tripled m) n (b :: c :: rest)
  | .tripled m, n, c :: rest => c :: layout plain indent (.tripled m) n rest
  | .comment, n, '\r' :: '\n' :: rest =>
    writtenLineEnd plain ['\r', '\n'] ++ indent ++ layout plain indent .code n rest
  | .comment, n, c :: rest =>
    if isLineEnd c then writtenLineEnd plain [c] ++ indent ++ layout plain indent .code n rest
    else c :: layout plain indent .comment n rest
  | .code, n, '\\' :: c :: rest => '\\' :: c :: layout plain indent .code n rest
  | .code, n, '\r' :: '\n' :: rest =>
    writtenLineEnd plain ['\r', '\n'] ++ (if n = 0 then [] else indent) ++ layout plain indent .code n rest
  | .code, n, '\'' :: '\'' :: '\'' :: rest => '\'' :: '\'' :: '\'' :: layout plain indent (.tripled '\'') n rest
  | .code, n, '"' :: '"' :: '"' :: rest => '"' :: '"' :: '"' :: layout plain indent (.tripled '"') n rest
  | .code, n, c :: rest =>
    if isLineEnd c then writtenLineEnd plain [c] ++ (if n = 0 then [] else indent) ++ layout plain indent .code n rest
    else if c == '\'' || c == '"' then c :: layout plain indent (.quoted c) n rest
    else if c == '#' then c :: layout plain indent .comment n rest
    else if c == '(' || c == '[' || c == '{' then c :: layout plain indent .code (n + 1) rest
    else if c == ')' || c == ']' || c == '}' then c :: layout plain indent .code (n - 1) rest
    else c :: layout plain indent .code n rest

/-- How many brackets are open at most, from a mode and a number of open brackets on. -/
def deepest : Mode → Nat → List Char → Nat
  | _, n, [] => n
  | .quoted m, n, '\\' :: _ :: rest => deepest (.quoted m) n rest
  | .quoted m, n, c :: rest => deepest (if c == m then .code else .quoted m) n rest
  | .tripled m, n, '\\' :: _ :: rest => deepest (.tripled m) n rest
  | .tripled m, n, a :: b :: c :: rest =>
    if a == m && b == m && c == m then deepest .code n rest else deepest (.tripled m) n (b :: c :: rest)
  | .tripled m, n, _ :: rest => deepest (.tripled m) n rest
  | .comment, n, c :: rest => deepest (if isLineEnd c then .code else .comment) n rest
  | .code, n, '\\' :: _ :: rest => deepest .code n rest
  | .code, n, '\'' :: '\'' :: '\'' :: rest => deepest (.tripled '\'') n rest
  | .code, n, '"' :: '"' :: '"' :: rest => deepest (.tripled '"') n rest
  | .code, n, c :: rest =>
    if c == '\'' || c == '"' then deepest (.quoted c) n rest
    else if c == '#' then deepest .comment n rest
    else if c == '(' || c == '[' || c == '{' then deepest .code (n + 1) rest
    else if c == ')' || c == ']' || c == '}' then max n (deepest .code (n - 1) rest)
    else deepest .code n rest

/-- The indentation of what stands in the class. -/
def classIndent : List Char := List.replicate 4 ' '

/-- What stands in front of the rest of a text. -/
def before (rest cs : List Char) : List Char := cs.take (cs.length - rest.length)

/-- The tokens of an expression at the front of a text, written, and the text behind them. -/
def expression? (plain cs : List Char) : Option (List Char × List Char) :=
  (Literal.expression? cs).map fun (_, rest) =>
    (layout plain classIndent .code 0 (before rest cs), rest)

/-- How deep the brackets of a literal nest. -/
def nesting (text : String) : Nat :=
  match Literal.firstToken? (text.length + 1) (Literal.front text) with
  | none => 0
  | some body =>
    match Literal.expression? body with
    | none => 0
    | some (_, rest) => deepest .code 0 (before rest body)

/-- A literal as the value of a field, and what follows it on its line; it must begin on the line of the field. -/
def fieldText? (text : String) : Option (String × String) :=
  let cs := text.toList
  let body := Literal.blanks cs
  (expression? (firstLineEnd cs) body).map fun (tokens, rest) =>
    let behind := Literal.blanks rest
    (String.ofList (before body cs ++ tokens),
      String.ofList (before behind rest ++ behind.takeWhile fun c => !isLineEnd c))

/-- A literal as the default of a parameter; its first line must not begin with a blank. -/
def paramText? (text : String) : Option String :=
  let cs := text.toList
  match cs with
  | [] => none
  | c :: _ =>
    if c == ' ' || c == '\t' then none
    else do
      let body ← Literal.firstToken? (cs.length + 1) cs
      let (tokens, _) ← expression? (firstLineEnd cs) body
      some (String.ofList tokens)

end Amalgam.Source.Layout
