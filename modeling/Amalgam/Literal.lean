import Amalgam.Literal.Token
import Amalgam.Text.Name

/-!
Literals: source texts whose value can be read off without evaluating anything.

A literal is a number, a text, a byte string, one of the four constants, a tuple, list, set or dict of literals, `set()`,
or a sum of a real and an imaginary number. Brackets nest at most two hundred deep. `read?` gives the value.
-/

namespace Amalgam.Literal

/-- A part of a literal as far as it is read: signs apply to bare numbers and sums to signed ones only. -/
inductive Part where
  | number (value : Value)
  | signed (value : Value)
  | datum (value : Value)
  /-- The name that an empty pair of brackets turns into the empty set. -/
  | setName

/-- The value of a complete part. -/
def Part.value? : Part → Option Value
  | number v => some v
  | signed v => some v
  | datum v => some v
  | setName => none

/-- How deep brackets may nest. -/
def maxDepth : Nat := 200

/-- The opposite of a number. -/
def negate : Value → Value
  | .int i => .int (-i)
  | .float x => .float (-x)
  | .complex re im => .complex (-re) (-im)
  | v => v

/-- The sum or difference of a real and an imaginary number. -/
def addImaginary? (minus : Bool) : Value → Value → Option Value
  | .int i, .complex re im =>
    let x := Float.ofInt i
    some (if minus then .complex (x - re) (0.0 - im) else .complex (x + re) (0.0 + im))
  | .float x, .complex re im =>
    some (if minus then .complex (x - re) (0.0 - im) else .complex (x + re) (0.0 + im))
  | _, _ => none

/-- A constant or the name of the empty set. -/
def word? (name : String) : Option Part :=
  if name = "None" then some (.datum .none)
  else if name = "True" then some (.datum (.bool true))
  else if name = "False" then some (.datum (.bool false))
  else if name = "set" then some .setName
  else none

/-- More quoted tokens after a first one. -/
def moreQuoted? (inside : Bool) : (fuel : Nat) → Value → List Char → Option (Value × List Char)
  | 0, _, _ => none
  | fuel + 1, v, cs =>
    let next := trivia inside cs
    if startsQuoted next then do
      let (w, rest) ← quoted? next
      let joined ← joinQuoted? v w
      moreQuoted? inside fuel joined rest
    else some (v, cs)

/-- A token that is not a bracket. -/
def simple? (inside : Bool) (cs : List Char) : Option (Part × List Char) :=
  match cs with
  | '.' :: '.' :: '.' :: rest => some (.datum .ellipsis, rest)
  | _ =>
    if startsQuoted cs then do
      let (v, rest) ← quoted? cs
      let (v, rest) ← moreQuoted? inside (rest.length + 1) v rest
      some (.datum v, rest)
    else
      match cs with
      | c :: _ =>
        if c.isDigit || c == '.' then (number? cs).map fun (v, rest) => (.number v, rest)
        else if Text.isNameStart c then
          let name := cs.takeWhile Text.isNameContinue
          (word? (String.ofList name)).map fun p => (p, cs.drop name.length)
        else none
      | [] => none

mutual

/-- A token or a bracketed part, with the empty call that may follow it. `depth` brackets are still allowed. -/
def atom? : (fuel : Nat) → (depth : Nat) → List Char → Option (Part × List Char)
  | 0, _, _ => none
  | fuel + 1, depth, cs => do
    let (part, rest) ← match cs, depth with
      | '(' :: rest, depth + 1 =>
        match gaps false rest with
        | ')' :: rest => some (.datum (.tuple []), rest)
        | rest => do
          let (first, rest) ← sum? fuel depth rest
          match gaps false rest with
          | ')' :: rest => some (first, rest)
          | ',' :: rest => do
            let v ← first.value?
            let (vs, rest) ← items? fuel depth ')' [v] (gaps false rest)
            some (.datum (.tuple vs), rest)
          | _ => none
      | '[' :: rest, depth + 1 => do
        let (vs, rest) ← items? fuel depth ']' [] (gaps false rest)
        some (.datum (.list vs), rest)
      | '{' :: rest, depth + 1 =>
        match gaps false rest with
        | '}' :: rest => some (.datum (.dict []), rest)
        | rest => do
          let (first, rest) ← sum? fuel depth rest
          let k ← first.value?
          match gaps false rest with
          | ':' :: rest => do
            let (v, rest) ← sum? fuel depth (gaps false rest)
            let v ← v.value?
            let (es, rest) ← entries? fuel depth [(k, v)] (gaps false rest)
            if es.all fun e => e.1.isHashable then some (.datum (Value.dictOf es), rest) else none
          | ',' :: rest => do
            let (vs, rest) ← items? fuel depth '}' [k] (gaps false rest)
            if vs.all Value.isHashable then some (.datum (Value.setOf vs), rest) else none
          | '}' :: rest => if k.isHashable then some (.datum (.set [k]), rest) else none
          | _ => none
      | _, _ => simple? (decide (depth < maxDepth)) cs
    match part, trivia (decide (depth < maxDepth)) rest with
    | .setName, '(' :: rest =>
      if depth = 0 then none
      else
        match gaps false rest with
        | ')' :: rest => some (.datum (.set []), rest)
        | _ => none
    | part, _ => some (part, rest)

/-- A part with an optional sign in front and an optional imaginary number behind. -/
def sum? : (fuel : Nat) → (depth : Nat) → List Char → Option (Part × List Char)
  | 0, _, _ => none
  | fuel + 1, depth, cs => do
    let inside := decide (depth < maxDepth)
    let sign (negative : Bool) (rest : List Char) : Option (Part × List Char) := do
      match ← atom? fuel depth (trivia inside rest) with
      | (.number v, rest) => some (.signed (if negative then negate v else v), rest)
      | _ => none
    let (left, rest) ← match cs with
      | '-' :: rest => sign true rest
      | '+' :: rest => sign false rest
      | _ => atom? fuel depth cs
    let add (minus : Bool) (more : List Char) : Option (Part × List Char) := do
      let v ← match left with
        | .number v => some v
        | .signed v => some v
        | _ => none
      match ← atom? fuel depth (trivia inside more) with
      | (.number w, rest) => (addImaginary? minus v w).map fun x => (.datum x, rest)
      | _ => none
    match trivia inside rest with
    | '+' :: more => add false more
    | '-' :: more => add true more
    | _ => some (left, rest)

/-- The items up to a closing bracket, the earlier ones reversed; a comma may stand after the last. -/
def items? : (fuel : Nat) → (depth : Nat) → (close : Char) → List Value → List Char → Option (List Value × List Char)
  | 0, _, _, _, _ => none
  | _ + 1, _, _, _, [] => none
  | fuel + 1, depth, close, acc, c :: rest =>
    if c == close then some (acc.reverse, rest)
    else do
      let (part, rest) ← sum? fuel depth (c :: rest)
      let v ← part.value?
      match gaps false rest with
      | ',' :: rest => items? fuel depth close (v :: acc) (gaps false rest)
      | d :: rest => if d == close then some ((v :: acc).reverse, rest) else none
      | [] => none

/-- The entries of a dict after its first, the earlier ones reversed. -/
def entries? : (fuel : Nat) → (depth : Nat) → List (Value × Value) → List Char →
    Option (List (Value × Value) × List Char)
  | 0, _, _, _ => none
  | fuel + 1, depth, acc, cs =>
    match cs with
    | '}' :: rest => some (acc.reverse, rest)
    | ',' :: rest =>
      match gaps false rest with
      | '}' :: rest => some (acc.reverse, rest)
      | rest => do
        let (k, rest) ← sum? fuel depth rest
        let k ← k.value?
        match gaps false rest with
        | ':' :: rest => do
          let (v, rest) ← sum? fuel depth (gaps false rest)
          let v ← v.value?
          entries? fuel depth ((k, v) :: acc) (gaps false rest)
        | _ => none
    | _ => none

end

/-- The rest of an unbracketed tuple after its first comma. -/
def openTuple? : (fuel : Nat) → List Value → List Char → Option (List Value × List Char)
  | 0, _, _ => none
  | fuel + 1, acc, cs =>
    match blanks cs with
    | c :: more =>
      if c == '#' || isLineEnd c then some (acc.reverse, cs)
      else do
        let (part, rest) ← sum? (3 * cs.length + 3) maxDepth (c :: more)
        let v ← part.value?
        match blanks rest with
        | ',' :: rest => openTuple? fuel (v :: acc) rest
        | _ => some ((v :: acc).reverse, rest)
    | [] => some (acc.reverse, cs)

/-- An expression at the front of a text, and the text after its last token. -/
def expression? (cs : List Char) : Option (Value × List Char) := do
  let (first, rest) ← sum? (3 * cs.length + 3) maxDepth cs
  let v ← first.value?
  match blanks rest with
  | ',' :: rest => do
    let (vs, rest) ← openTuple? (cs.length + 1) [v] rest
    some (.tuple vs, rest)
  | _ => some (v, rest)

/-- Drops the blanks in front of a text. -/
def front (text : String) : List Char := text.toList.dropWhile fun c => c == ' ' || c == '\t'

/-- The value of a literal text, if it is one. -/
def read? (text : String) : Option Value := do
  if text.toList.contains '\x00' then none
  else
    let cs ← firstToken? (text.length + 1) (front text)
    let (v, rest) ← expression? cs
    if isTail rest then some v else none

/-- The items of a literal that is a tuple without brackets. -/
def openItems? (text : String) : Option (List Value) := do
  let cs ← firstToken? (text.length + 1) (front text)
  let (_, rest) ← sum? (3 * cs.length + 3) maxDepth cs
  match blanks rest, read? text with
  | ',' :: _, some (.tuple vs) => some vs
  | _, _ => none

end Amalgam.Literal

namespace Amalgam

/-- Whether a source text is a literal. -/
def isLiteral (text : String) : Bool := (Literal.read? text).isSome

end Amalgam
