import Amalgam.Value

/-!
Combination functions: what becomes of the results of several contributors.
-/

namespace Amalgam

/-- The combination functions that come with the library. -/
inductive Combination where
  /-- Every contributor runs and all results are dropped. -/
  | execute
  /-- The last result counts. -/
  | last
  /-- The last result that is something counts, so that one hook's verdict survives the silence of others. -/
  | lastDecision
  deriving DecidableEq, Repr

namespace Combination

/-- Whether a value is something. -/
def isSomething : Value → Bool
  | .none => false
  | _ => true

/-- The joint result. -/
def combine : Combination → List Value → Value
  | execute, _ => .none
  | last, results => results.getLast?.getD .none
  | lastDecision, results => (results.reverse.find? isSomething).getD .none

theorem combine_last_append (results : List Value) (v : Value) : last.combine (results ++ [v]) = v := by
  simp [combine]

theorem combine_lastDecision_append (results : List Value) (v : Value) :
    lastDecision.combine (results ++ [v]) = if isSomething v then v else lastDecision.combine results := by
  simp only [combine, List.reverse_append, List.reverse_cons, List.reverse_nil, List.nil_append, List.singleton_append,
    List.find?_cons]
  cases isSomething v <;> rfl

end Combination

end Amalgam
