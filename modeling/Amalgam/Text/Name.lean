import Amalgam.Text.CharSet

/-!
Names of the class language: identifiers, reserved words, dotted names, and the renaming of private names inside a
class body.
-/

namespace Amalgam.Text

/-- A text that may stand as one name token, reserved or not. -/
def isIdentifier (s : String) : Bool :=
  match s.toList with
  | [] => false
  | c :: rest => isNameStart c && rest.all isNameContinue

/-- The words that no name may take. -/
def reservedWords : List String :=
  ["False", "None", "True", "and", "as", "assert", "async", "await", "break", "class", "continue", "def", "del", "elif",
   "else", "except", "finally", "for", "from", "global", "if", "import", "in", "is", "lambda", "nonlocal", "not", "or",
   "pass", "raise", "return", "try", "while", "with", "yield"]

/-- Whether the text is one of the reserved words. -/
def isReserved (s : String) : Bool := reservedWords.contains s

/-- A text that may stand as a name of the reader's choice. -/
def isFreeName (s : String) : Bool := isIdentifier s && !isReserved s

/-- Identifiers joined by single dots. -/
def isDottedIdentifier (s : String) : Bool := (splitOnChar '.' s).all isIdentifier

/-- Whether compatibility composition leaves every character of the name as it is. -/
def isComposed (s : String) : Bool := s.toList.all fun c => !isCompatibility c

/-- A name with two leading underscores, and not two trailing ones, is private to the class body it is written in. -/
def isPrivateName (name : String) : Bool :=
  name.startsWith "__" && !name.endsWith "__" && !name.toList.contains '.'

/-- A name as written in the body of a class is stored with the class name in front when it is private. -/
def privateName (owner name : String) : String :=
  let stem := owner.toList.dropWhile (· == '_')
  if isPrivateName name && !stem.isEmpty then "_" ++ String.ofList stem ++ name else name

end Amalgam.Text
