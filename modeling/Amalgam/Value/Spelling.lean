import Amalgam.Text.Decimal
import Amalgam.Text.Quoted
import Amalgam.Value

/-!
The written form of values.

Data is written so that it can be read back (`Amalgam.Literal`). How an object is written is left to a speller, which
may refuse; a container that holds a refused object has no written form either.
-/

namespace Amalgam.Value

/-- Writes the values that are not plain data; nothing where that is impossible. -/
abbrev Speller := Value → Option String

/-- The text of a complex number with the given imaginary part alone. -/
def imaginary (x : Float) : String :=
  let text := Text.Decimal.Style.values.text x
  let short := if text.endsWith ".0" then String.ofList (text.toList.take (text.length - 2)) else text
  short ++ "j"

/-- The text of a complex number. -/
def complexText (re im : Float) : String :=
  if re.toBits == 0 then imaginary im
  else
    let text := Text.Decimal.Style.values.text re
    let short := if text.endsWith ".0" then String.ofList (text.toList.take (text.length - 2)) else text
    let rest := imaginary im
    "(" ++ short ++ (if rest.startsWith "-" then rest else "+" ++ rest) ++ ")"

mutual

/-- The written form of a value. -/
def spell? (other : Speller) : Value → Option String
  | none => some "None"
  | bool b => some (if b then "True" else "False")
  | int i => some (toString i)
  | float x => some (Text.Decimal.Style.values.text x)
  | complex re im => some (complexText re im)
  | str s => some (Text.Quoted.quote s)
  | bytes bs => some (Text.Quoted.quoteBytes bs)
  | ellipsis => some "Ellipsis"
  | list xs => (spellAll? other xs).map fun ts => "[" ++ String.intercalate ", " ts ++ "]"
  | tuple [x] => (spell? other x).map fun t => "(" ++ t ++ ",)"
  | tuple xs => (spellAll? other xs).map fun ts => "(" ++ String.intercalate ", " ts ++ ")"
  | set [] => some "set()"
  | set xs => (spellAll? other xs).map fun ts => "\x7b" ++ String.intercalate ", " ts ++ "\x7d"
  | dict es => (spellEntries? other es).map fun ts => "\x7b" ++ String.intercalate ", " ts ++ "\x7d"
  | token name => some ("<" ++ name ++ ">")
  | verdict k v => (spell? other v).map fun t => k.name ++ "(value=" ++ t ++ ")"
  | v => other v

/-- The written forms of all values of a list. -/
def spellAll? (other : Speller) : List Value → Option (List String)
  | [] => some []
  | x :: xs => do
    let t ← spell? other x
    let ts ← spellAll? other xs
    some (t :: ts)

/-- The written forms of the entries of a table. -/
def spellEntries? (other : Speller) : List (Value × Value) → Option (List String)
  | [] => some []
  | (k, v) :: es => do
    let t ← spell? other k
    let u ← spell? other v
    let ts ← spellEntries? other es
    some ((t ++ ": " ++ u) :: ts)

end

/-- The written form of a value, or a note that its class has none. -/
def spellSafely (other : Speller) (v : Value) : String :=
  (spell? other v).getD ("<unrepresentable " ++ v.className ++ ">")

end Amalgam.Value
