/-!
What stands between the tokens of a literal: blanks, continued lines, and inside brackets line ends and comments.
-/

namespace Amalgam.Literal

/-- A line end at the front of a text, and what follows it. -/
def lineEnd? : List Char → Option (List Char × List Char)
  | '\r' :: '\n' :: rest => some (['\r', '\n'], rest)
  | '\r' :: rest => some (['\r'], rest)
  | '\n' :: rest => some (['\n'], rest)
  | _ => none

def isLineEnd (c : Char) : Bool := c == '\n' || c == '\r'

def isGap (c : Char) : Bool := c == ' ' || c == '\t' || c == '\x0c'

/-- Drops blanks and continued lines; the end of the text does not continue a line. -/
def blanks : List Char → List Char
  | '\\' :: '\r' :: '\n' :: c :: rest => blanks (c :: rest)
  | '\\' :: '\r' :: c :: rest => if c == '\n' then '\\' :: '\r' :: c :: rest else blanks (c :: rest)
  | '\\' :: '\n' :: c :: rest => blanks (c :: rest)
  | c :: rest => if isGap c then blanks rest else c :: rest
  | [] => []

/-- Drops blanks, line ends and comments; the flag tells whether the text begins within a comment. -/
def gaps : Bool → List Char → List Char
  | true, c :: rest => if isLineEnd c then gaps false rest else gaps true rest
  | false, '\\' :: '\r' :: '\n' :: rest => gaps false rest
  | false, '\\' :: '\r' :: rest => gaps false rest
  | false, '\\' :: '\n' :: rest => gaps false rest
  | false, '#' :: rest => gaps true rest
  | false, c :: rest => if isGap c || isLineEnd c then gaps false rest else c :: rest
  | _, [] => []

/-- What may stand between two tokens, inside or outside brackets. -/
def trivia (inside : Bool) (cs : List Char) : List Char := if inside then gaps false cs else blanks cs

/-- The column at which a line begins, and the line from there on; `kept` is the column of a continued line. -/
def indentation : (column kept : Nat) → List Char → Nat × List Char
  | column, kept, '\\' :: '\r' :: '\n' :: c :: rest => indentation column (if kept = 0 then column else kept) (c :: rest)
  | column, kept, '\\' :: '\r' :: c :: rest =>
    if c == '\n' then (if kept = 0 then column else kept, '\\' :: '\r' :: c :: rest)
    else indentation column (if kept = 0 then column else kept) (c :: rest)
  | column, kept, '\\' :: '\n' :: c :: rest => indentation column (if kept = 0 then column else kept) (c :: rest)
  | column, kept, ' ' :: rest => indentation (column + 1) kept rest
  | column, kept, '\t' :: rest => indentation ((column / 8 + 1) * 8) kept rest
  | _, kept, '\x0c' :: rest => indentation 0 kept rest
  | column, kept, cs => (if kept = 0 then column else kept, cs)

/-- Drops the lines in front of the first token; the token must begin its line in the first column. -/
def firstToken? : (fuel : Nat) → List Char → Option (List Char)
  | 0, _ => none
  | fuel + 1, cs =>
    match indentation 0 0 cs with
    | (_, []) => none
    | (column, c :: rest) =>
      if c == '#' then firstToken? fuel (rest.dropWhile fun c => !isLineEnd c)
      else if isLineEnd c then firstToken? fuel rest
      else if column = 0 then some (c :: rest)
      else none

/-- Whether nothing but blank lines and comments follows. -/
def onlyTrivia : (fuel : Nat) → List Char → Bool
  | 0, _ => false
  | fuel + 1, cs =>
    match indentation 0 0 cs with
    | (column, []) => column = 0
    | (_, c :: rest) =>
      if c == '#' then
        match rest.dropWhile fun c => !isLineEnd c with
        | [] => true
        | more => onlyTrivia fuel more
      else if isLineEnd c then onlyTrivia fuel rest
      else false

/-- Whether the rest of a line and of the text holds no further token. -/
def isTail (cs : List Char) : Bool :=
  match blanks cs with
  | [] => true
  | c :: rest =>
    if c == '#' then onlyTrivia (rest.length + 1) (rest.dropWhile fun c => !isLineEnd c)
    else if isLineEnd c then onlyTrivia (rest.length + 1) rest
    else false

end Amalgam.Literal
