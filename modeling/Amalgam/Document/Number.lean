/-!
Reading decimal numbers exactly: digits to natural numbers, and a decimal with an exponent to the nearest double.
-/

namespace Amalgam.Document.Number

/-- The value of a list of decimal digits. -/
def ofDigits (cs : List Char) : Nat := cs.foldl (fun n c => 10 * n + (c.toNat - 48)) 0

/-- The value of one digit in any base up to sixteen. -/
def digitValue? (c : Char) : Option Nat :=
  if '0' ≤ c && c ≤ '9' then some (c.toNat - 48)
  else if 'a' ≤ c && c ≤ 'f' then some (c.toNat - 87)
  else if 'A' ≤ c && c ≤ 'F' then some (c.toNat - 55)
  else none

/-- The value of a list of digits in the given base, if all are digits of it. -/
def ofDigitsIn? (base : Nat) (cs : List Char) : Option Nat :=
  cs.foldlM (fun n c => (digitValue? c).bind fun d => if d < base then some (base * n + d) else none) 0

/-- The double nearest to `digits * 10 ^ exponent`; exponents far outside the range of doubles are cut off. -/
def toDouble (digits : Nat) (exponent : Int) : Float :=
  if digits = 0 then 0.0
  else
    let length := (Nat.toDigits 10 digits).length
    if exponent + length > 400 then 1.0 / 0.0
    else if exponent + length < -400 then 0.0
    else if exponent < 0 then Float.ofScientific digits true exponent.natAbs
    else Float.ofScientific digits false exponent.natAbs

/-- The double of a decimal written as whole digits, fraction digits and exponent. -/
def ofParts (whole fraction : List Char) (exponent : Int) : Float :=
  toDouble (ofDigits (whole ++ fraction)) (exponent - fraction.length)

end Amalgam.Document.Number
