import Amalgam.Blueprint.Alias
import Amalgam.Source
import Amalgam.Surroundings

/-!
Running generated bodies.

A body runs over its locals and its surroundings: whatever hooks, contributors and combinators do happens there.
-/

namespace Amalgam.Source

variable {m : Type → Type} [Monad m]

/-- The value of a name: a local first. -/
def lookUp (s : Surroundings m) (env : Entries Value) (name : String) : m Value :=
  match env.get? name with
  | some v => pure v
  | none => s.lookUp name

/-- The value behind a name and attributes. -/
def Target.eval (s : Surroundings m) (env : Entries Value) (t : Target) : m Value := do
  let v ← lookUp s env t.head
  t.attributes.foldlM s.attr v

/-- Adds keywords one after another; none may come twice. -/
def addKeywords : Entries Value → List (Value × Value) → Option (Entries Value)
  | done, [] => some done
  | done, (.str k, v) :: rest => if done.has k then none else addKeywords (done.put k v) rest
  | _, _ :: _ => none

/-- The values that a spread argument stands for. -/
def spreadItems : Value → Option (List Value)
  | .tuple vs => some vs
  | .list vs => some vs
  | _ => none

/-- The keywords that a spread table stands for. -/
def spreadEntries : Value → Option (List (Value × Value))
  | .dict es => some es
  | _ => none

/-- Evaluates arguments, given the positional ones and the keywords so far. -/
def evalArgs (s : Surroundings m) (env : Entries Value) :
    List Value → Entries Value → List Arg → m (Option (List Value × Entries Value))
  | vs, ks, [] => pure (some (vs, ks))
  | vs, ks, .name n :: rest => do
    let v ← lookUp s env n
    evalArgs s env (vs ++ [v]) ks rest
  | vs, ks, .text t :: rest => evalArgs s env (vs ++ [.str t]) ks rest
  | vs, ks, .spread n :: rest => do
    match spreadItems (← lookUp s env n) with
    | some ws => evalArgs s env (vs ++ ws) ks rest
    | none => pure none
  | vs, ks, .named k n :: rest => do
    let v ← lookUp s env n
    match addKeywords ks [(.str k, v)] with
    | some ks => evalArgs s env vs ks rest
    | none => pure none
  | vs, ks, .spreadNamed n :: rest => do
    match (spreadEntries (← lookUp s env n)).bind (addKeywords ks) with
    | some ks => evalArgs s env vs ks rest
    | none => pure none

/-- The value of a call. -/
def Call.eval (s : Surroundings m) (env : Entries Value) (c : Call) : m Value := do
  let f ← c.target.eval s env
  match ← evalArgs s env [] [] c.args with
  | none => s.misfit
  | some (vs, ks) =>
    let v ← s.call f vs ks
    if c.isAwaited then s.await v else pure v

/-- The values of calls in order. -/
def evalCalls (s : Surroundings m) (env : Entries Value) : List Call → m (List Value)
  | [] => pure []
  | c :: cs => do
    let v ← c.eval s env
    return v :: (← evalCalls s env cs)

/-- The value of the work of a method. -/
def Work.eval (s : Surroundings m) (env : Entries Value) : Work → m Value
  | .call c => c.eval s env
  | .combine f cs => do
    let fv ← lookUp s env f
    let vs ← evalCalls s env cs
    s.call fv vs []

/-- Whether the decision kept is of the named class. -/
def isDecided (s : Surroundings m) (env : Entries Value) (cls : String) : m Bool := do
  let test ← lookUp s env "isinstance"
  let decision ← lookUp s env Alias.decisionSlot
  let c ← lookUp s env cls
  match ← s.call test [decision, c] [] with
  | .bool b => pure b
  | .none => pure false
  | .int i => pure (i != 0)
  | .str t => pure (!t.isEmpty)
  | .list vs => pure (!vs.isEmpty)
  | .tuple vs => pure (!vs.isEmpty)
  | .dict es => pure (!es.isEmpty)
  | .set vs => pure (!vs.isEmpty)
  | _ => pure true

/-- Runs statements over the locals; the value is what they return. -/
def run (s : Surroundings m) : Entries Value → List Stmt → m Value
  | _, [] => pure .none
  | env, .observe c :: rest => do
    let _ ← c.eval s env
    run s env rest
  | env, .decide c :: rest => do
    let v ← c.eval s env
    run s (env.put Alias.decisionSlot v) rest
  | env, .leaveOn cls :: rest => do
    if ← isDecided s env cls then
      let decision ← lookUp s env Alias.decisionSlot
      s.attr decision "value"
    else run s env rest
  | env, .keep w :: rest => do
    let v ← w.eval s env
    run s (env.put Alias.returnSlot v) rest
  | env, .replaceOn cls :: rest => do
    if ← isDecided s env cls then
      let decision ← lookUp s env Alias.decisionSlot
      let v ← s.attr decision "value"
      run s (env.put Alias.returnSlot v) rest
    else run s env rest
  | env, .finish :: _ => lookUp s env Alias.returnSlot
  | env, .give w :: _ => w.eval s env

/-- The local that a statement assigns. -/
def Stmt.assigned? : Stmt → Option String
  | decide _ => some Alias.decisionSlot
  | keep _ => some Alias.returnSlot
  | replaceOn _ => some Alias.returnSlot
  | _ => none

/-- Runs a body: a name that it assigns anywhere is a local of it from the start. -/
def runBody (s : Surroundings m) (env : Entries Value) (body : List Stmt) : m Value :=
  run (s.hide (body.filterMap Stmt.assigned?)) env body

end Amalgam.Source
