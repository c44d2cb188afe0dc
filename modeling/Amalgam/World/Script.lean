import Amalgam.Surroundings

/-!
Scripts: the small expressions that the bodies of described methods are made of.
-/

namespace Amalgam

/-- An expression over the parameters and the receiver of a method. -/
inductive Script where
  | value (v : Value)
  | param (name : String)
  /-- An attribute of the receiver. -/
  | attr (name : String)
  | verdict (kind : Verdict) (e : Script)
  /-- Texts as they are and other values as they are shown, put together. -/
  | cat (es : List Script)
  | list (es : List Script)
  /-- A method of the receiver, called. -/
  | call (name : String) (args : List Script)
  /-- The third expression if the first two are equal, otherwise the fourth. -/
  | choose (a b x y : Script)
  /-- The name of the receiver's class. -/
  | className
  | raise (text : String)
  deriving Inhabited

namespace Script

variable {m : Type → Type} [Monad m]

/-- How a value reads in a text put together. -/
def piece (s : Surroundings m) : Value → m String
  | .str t => pure t
  | v => s.shown v

/-- The pieces of a text put together. -/
def pieces (s : Surroundings m) : List Value → m (List String)
  | [] => pure []
  | v :: vs => do
    let t ← piece s v
    return t :: (← pieces s vs)

mutual

/-- The value of a script. -/
def eval (s : Surroundings m) (receiver : Value) (env : Entries Value) : Script → m Value
  | .value v => pure v
  | .param name =>
    match env.get? name with
    | some v => pure v
    | none => s.unbound
  | .attr name => s.attr receiver name
  | .verdict kind e => do return .verdict kind (← eval s receiver env e)
  | .cat es => do
    let vs ← evalAll s receiver env es
    return .str (String.join (← pieces s vs))
  | .list es => do return .list (← evalAll s receiver env es)
  | .call name args => do
    let f ← s.attr receiver name
    let vs ← evalAll s receiver env args
    s.call f vs []
  | .choose a b x y => do
    let v ← eval s receiver env a
    let w ← eval s receiver env b
    if v.same w then eval s receiver env x else eval s receiver env y
  | .className => do return .str (← s.className receiver)
  | .raise text => s.raise text

/-- The values of scripts. -/
def evalAll (s : Surroundings m) (receiver : Value) (env : Entries Value) : List Script → m (List Value)
  | [] => pure []
  | e :: es => do
    let v ← eval s receiver env e
    return v :: (← evalAll s receiver env es)

end

end Script

end Amalgam
