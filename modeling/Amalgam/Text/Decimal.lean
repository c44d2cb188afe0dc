/-!
Shortest decimal text of a binary floating point number.

A finite double is `m * 2^e`. The numbers that round to it fill an interval around it, ends included when `m` is even.
Of the decimals with 1, 2, … digits the first grid with a point in the interval is taken, of two such points the
nearer, and on a tie the even one. What is written positionally and how an exponent looks is `Style`'s business.
-/

namespace Amalgam.Text.Decimal

/-- The power of two with exponent `n`. -/
def twoTo (n : Nat) : Nat := Nat.pow 2 n

/-- The power of ten with exponent `n`. -/
def tenTo (n : Nat) : Nat := Nat.pow 10 n

/-- A positive finite double as `mantissa * 2 ^ exponent`, and whether the gap below it is half the gap above. -/
structure Binary where
  mantissa : Nat
  exponent : Int
  narrowBelow : Bool

/-- Splits the bits of a positive finite double. -/
def Binary.ofBits (bits : Nat) : Binary :=
  let fraction : Nat := bits % twoTo 52
  let biased : Nat := bits / twoTo 52 % twoTo 11
  if biased = 0 then ⟨fraction, -1074, false⟩
  else ⟨twoTo 52 + fraction, (biased : Int) - 1075, fraction = 0 && biased > 1⟩

/-- A decimal `digits * 10 ^ exponent`. -/
structure Digits where
  digits : Nat
  exponent : Int
  deriving DecidableEq, Repr

/-- The value and the ends of its rounding interval over one common denominator. -/
structure Interval where
  low : Nat
  value : Nat
  high : Nat
  denominator : Nat
  closed : Bool

/-- The rounding interval of a double; quarters of a unit keep the narrow lower gap whole. -/
def Binary.interval (b : Binary) : Interval :=
  let up := b.exponent.toNat
  let down := (-b.exponent).toNat
  let scale := twoTo up
  { low := (4 * b.mantissa - (if b.narrowBelow then 1 else 2)) * scale
    value := 4 * b.mantissa * scale
    high := (4 * b.mantissa + 2) * scale
    denominator := 4 * twoTo down
    closed := b.mantissa % 2 = 0 }

/-- Whether `n * 10 ^ k` lies in the interval. -/
def Interval.holds (i : Interval) (n : Nat) (k : Int) : Bool :=
  let x := n * tenTo k.toNat * i.denominator
  let one := tenTo (-k).toNat
  if i.closed then i.low * one ≤ x && x ≤ i.high * one
  else i.low * one < x && x < i.high * one

/-- The point of the grid of step `10 ^ k` that represents the interval, if one lies in it. -/
def Interval.pick (i : Interval) (k : Int) : Option Nat :=
  let top := i.value * tenTo (-k).toNat
  let bottom := i.denominator * tenTo k.toNat
  let below := top / bottom
  let twice := 2 * (top - below * bottom)
  match i.holds below k, i.holds (below + 1) k with
  | true, true =>
    if twice < bottom ∨ (twice = bottom ∧ below % 2 = 0) then some below else some (below + 1)
  | true, false => some below
  | false, true => some (below + 1)
  | false, false => none

/-- The number of decimal digits of a positive number. -/
def digitCount (n : Nat) : Nat := (Nat.toDigits 10 n).length

/-- The largest `k` with `10 ^ k` not above the value, found from the length of its whole part or of its inverse. -/
def Interval.magnitude (i : Interval) : Int :=
  if i.denominator ≤ i.value then (digitCount (i.value / i.denominator) : Int) - 1
  else 0 - (digitCount ((i.denominator - 1) / i.value) : Int)

/-- Tries grids with growing digit counts; seventeen digits always suffice for a double. -/
def Interval.search (i : Interval) : (tries : Nat) → Int → Digits
  | 0, k => ⟨i.value * tenTo (-k).toNat / (i.denominator * tenTo k.toNat), k⟩
  | tries + 1, k =>
    match i.pick k with
    | some n => ⟨n, k⟩
    | none => i.search tries (k - 1)

/-- Moves trailing zeros of the digits into the exponent. -/
def Digits.normalize : (fuel : Nat) → Digits → Digits
  | 0, d => d
  | fuel + 1, d =>
    if d.digits ≠ 0 && d.digits % 10 = 0 then Digits.normalize fuel ⟨d.digits / 10, d.exponent + 1⟩ else d

/-- The shortest decimal that reads back as the double with these bits (positive and finite). -/
def shortest (bits : Nat) : Digits :=
  let i := (Binary.ofBits bits).interval
  Digits.normalize 400 (i.search 17 (i.magnitude + 1))

/-- How a format writes a number. -/
structure Style where
  /-- Numbers whose decimal point falls after at least this many places are written with an exponent. -/
  firstLarge : Int
  /-- Numbers whose decimal point falls before this place are written with an exponent. -/
  lastSmall : Int
  notANumber : String
  infinite : String

/-- Numbers as the class language writes them: an exponent below 0.0001 and from 10^16, a point in all others. -/
def Style.values : Style := ⟨16, -4, "nan", "inf"⟩

/-- Zeros as text. -/
def zeros (n : Nat) : String := String.ofList (List.replicate n '0')

/-- Writes digits positionally or with an exponent of at least two places. -/
def Style.write (style : Style) (d : Digits) : String :=
  let text := toString d.digits
  let count := text.length
  let point : Int := count + d.exponent
  if point > style.firstLarge || point ≤ style.lastSmall then
    let power := point - 1
    let sign := if power < 0 then "-" else "+"
    let size := toString power.natAbs
    let padded := if size.length < 2 then "0" ++ size else size
    let cs := text.toList
    let whole := String.ofList (cs.take 1)
    let rest := String.ofList (cs.drop 1)
    let shown := if rest.isEmpty then whole else whole ++ "." ++ rest
    shown ++ "e" ++ sign ++ padded
  else if point ≤ 0 then
    "0." ++ zeros (-point).toNat ++ text
  else if d.exponent ≥ 0 then
    text ++ zeros d.exponent.toNat ++ ".0"
  else
    String.ofList (text.toList.take point.toNat) ++ "." ++ String.ofList (text.toList.drop point.toNat)

/-- The text of a double. -/
def Style.text (style : Style) (x : Float) : String :=
  let bits := x.toBits.toNat
  let sign := if bits / twoTo 63 = 1 then "-" else ""
  let magnitude := bits % twoTo 63
  if magnitude > 0x7FF * twoTo 52 then style.notANumber
  else if magnitude = 0x7FF * twoTo 52 then sign ++ style.infinite
  else if magnitude = 0 then sign ++ "0.0"
  else sign ++ style.write (shortest magnitude)

end Amalgam.Text.Decimal
