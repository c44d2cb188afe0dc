/-!
The order in which a class and its ancestors are searched.

The orders of the bases and the list of the bases itself are merged: again and again the first head is taken that stands
in no tail. Where none can be taken, the bases contradict each other.
-/

namespace Amalgam.Linearization

/-- The first head that stands in no tail. -/
def candidate? (lists : List (List Nat)) : Option Nat :=
  (lists.filterMap List.head?).find? fun c => lists.all fun l => !l.tail.contains c

/-- Drops a head wherever it stands. -/
def dropHead (c : Nat) (lists : List (List Nat)) : List (List Nat) :=
  (lists.map fun l => if l.head? = some c then l.tail else l).filter fun l => !l.isEmpty

/-- Merges lists, at most as many steps as they have elements. -/
def merge? : (fuel : Nat) → List (List Nat) → Option (List Nat)
  | 0, lists => if lists.isEmpty then some [] else none
  | fuel + 1, lists =>
    if lists.isEmpty then some []
    else do
      let c ← candidate? lists
      (merge? fuel (dropHead c lists)).map (c :: ·)

/-- The order of a class with the given bases. -/
def order? (self : Nat) (bases : List Nat) (orderOf : Nat → List Nat) : Option (List Nat) :=
  let lists := (bases.map orderOf ++ [bases]).filter fun l => !l.isEmpty
  (merge? lists.flatten.length lists).map (self :: ·)

end Amalgam.Linearization
