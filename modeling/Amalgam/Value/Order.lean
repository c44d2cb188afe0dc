import Amalgam.Value

/-!
The order of values: numbers among numbers, texts among texts, and sequences item by item.
-/

namespace Amalgam.Value

/-- Whether the first number is less; complex numbers have no order. -/
def Number.less? : Number → Number → Option Bool
  | whole a, whole b => some (decide (a < b))
  | whole a, real b => some (decide (Float.ofInt a < b))
  | real a, whole b => some (decide (a < Float.ofInt b))
  | real a, real b => some (decide (a < b))
  | _, _ => Option.none

mutual

/-- Whether the first value is less, if the two can be compared. -/
def less? (a b : Value) : Option Bool :=
  match a, b with
  | str a, str b => some (decide (a < b))
  | bytes a, bytes b => some (decide (a < b))
  | list as, list bs => lessAll? as bs
  | tuple as, tuple bs => lessAll? as bs
  | a, b => do
    let x ← a.number?
    let y ← b.number?
    x.less? y
termination_by structural a

/-- Compares sequences at the first place where they differ. -/
def lessAll? (as bs : List Value) : Option Bool :=
  match as, bs with
  | [], [] => some false
  | [], _ :: _ => some true
  | _ :: _, [] => some false
  | a :: as, b :: bs => if same a b then lessAll? as bs else less? a b
termination_by structural as

end

/-- The greatest of some values, the first of equal ones. -/
def greatestFrom? : Value → List Value → Option Value
  | best, [] => some best
  | best, v :: rest => do
    if ← less? best v then greatestFrom? v rest else greatestFrom? best rest

end Amalgam.Value
