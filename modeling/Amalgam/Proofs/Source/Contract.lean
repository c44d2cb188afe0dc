import Amalgam.Proofs.Agreement
import Amalgam.Proofs.Source.Forwarding
import Amalgam.Proofs.Source.Names

/-!
# The contract of a generated method

A method runs in a scene: surroundings over any state, in which the names of symbols stand for their objects. Whatever
hooks, contributors and combination functions do there, `Scene.contract` says which of them are called with what, and
what becomes of their results. Only the plan and the core of the method enter it, not its code.
-/

namespace Amalgam

variable {W : Type}

/-- What is around the methods of a composite, and what its names stand for. -/
structure Scene (W : Type) where
  surroundings : Surroundings (Act W)
  /-- The states in which names stand for what they should. -/
  Inv : W → Prop
  /-- The object of a symbol, by its path. -/
  object : String → Value
  composite : Value
  /-- The test whether a value is of a class. -/
  test : Value

/-- Whether a value carries the verdict of a kind. -/
def Value.isVerdict (k : Verdict) : Value → Bool
  | .verdict l _ => k == l
  | _ => false

theorem Value.eq_verdict {k : Verdict} {d : Value} (h : d.isVerdict k = true) : ∃ v, d = .verdict k v := by
  cases d with
  | verdict l v => exact ⟨v, by rw [eq_of_beq h]⟩
  | _ => cases h

namespace Scene

/-- A name stands for a value. -/
def Finds (x : Scene W) (name : String) (v : Value) : Prop := Act.Agree x.Inv (x.surroundings.lookUp name) (pure v)

/--
The names of the module in which a composite is defined: those of its symbols, its own, and the test of the language
unless its own name hides that. Nothing done by other code changes them. The test tells verdicts, and a verdict gives
the value it carries.
-/
structure Lawful (b : Blueprint) (x : Scene W) : Prop where
  symbol : ∀ {path name}, b.aliases.get? path = some name → Text.isComposed name = true →
    x.Finds name (x.object path)
  composite : Text.isComposed b.name = true → x.Finds b.name x.composite
  test : b.name ≠ "isinstance" → x.Finds "isinstance" x.test
  attr : ∀ v name, Act.Keeps x.Inv (x.surroundings.attr v name)
  call : ∀ v args keywords, Act.Keeps x.Inv (x.surroundings.call v args keywords)
  await : ∀ v, Act.Keeps x.Inv (x.surroundings.await v)
  tells : ∀ d k, Act.Agree x.Inv (x.surroundings.call x.test [d, x.object k.ref.path] []) (pure (.bool (d.isVerdict k)))
  carries : ∀ k v, Act.Agree x.Inv (x.surroundings.attr (.verdict k v) "value") (pure v)

end Scene

/-- One call of a method: the receiver, if it has one, and the arguments. -/
structure Occasion where
  receiver : Option Value
  args : List Value
  keywords : Entries Value

/--
The locals with which the body of a method starts: the receiver, and for each parameter, under the name that its class
makes of it, a value of its kind, so that the arguments are handed on as those of the occasion.
-/
structure Occasion.Starts (o : Occasion) (b : Blueprint) (m : MethodDef) (locals : Entries Value) : Prop where
  receiver : (Source.receiverOf m.signature.kind).map locals.get? = o.receiver.map some
  known : locals.keys ⊆ m.localNames b
  params : ∃ extra bound, Handed extra (m.signature.params.map Param.shape) bound o.args o.keywords ∧
    ∀ e ∈ bound, locals.get? (Text.privateName b.name e.1) = some e.2
  distinct : o.keywords.keys.Nodup

/-- The planned call of the hook of a member, or of that of all members. -/
def MethodDef.hook? (m : MethodDef) (phase : Phase) (member : String) : Option Advice.Call :=
  (match phase with
  | .before => m.before
  | .after => m.after).find? fun call => call.hook == Advice.hook phase member

namespace Scene

variable (x : Scene W) (m : MethodDef) (o : Occasion)

/-- Calls a hook of the receiver, or of the composite where there is none. -/
def hook (call : Advice.Call) (front : List Value) : Act W Value := do
  let f ← x.surroundings.attr (o.receiver.getD x.composite) call.hook
  let v ← x.surroundings.call f (front ++ o.args) o.keywords
  if call.isAsync && m.signature.isAsync then x.surroundings.await v else pure v

/-- Calls a hook, if it is planned, and ignores what it returns. -/
def watch (call? : Option Advice.Call) (front : List Value) : Act W Unit :=
  match call? with
  | some call => do
    let _ ← x.hook m o call front
  | none => pure ()

/-- Calls a hook, if it is planned, for what it decides. -/
def decision (call? : Option Advice.Call) (front : List Value) : Act W (Option Value) :=
  match call? with
  | some call => do return some (← x.hook m o call front)
  | none => pure none

/-- The function behind the member of a contributor. -/
def implementation (target : MemberCall) : Act W Value := do
  let f ← x.surroundings.attr (x.object target.contributor) target.member
  if m.signature.kind = .ofClass then x.surroundings.attr f "__func__" else pure f

/-- Calls the member of one contributor with the receiver and the arguments of the method. -/
def contribution (target : MemberCall) : Act W Value := do
  let v ← x.surroundings.call (← x.implementation m target) (o.receiver.toList ++ o.args) o.keywords
  if m.signature.isAsync then x.surroundings.await v else pure v

/-- What the contributors make of a call: the result of one, or what a function makes of the results of all, in order. -/
def outcome : Act W Value :=
  match m.core with
  | .call target => x.contribution m o target
  | .combine f targets => do
    let results ← targets.mapM (x.contribution m o)
    x.surroundings.call (x.object f) results []

/--
What a method does. The hook of all members learns of the call; the hook of the member may end it with a value of its
own; the contributors give the result, which the second hook of the member may replace; the second hook of all members
learns of what came of it.
-/
def contract : Act W Value := do
  x.watch m o (m.hook? .before Advice.all) [.str m.memberId]
  match ← x.decision m o (m.hook? .before m.name) [] with
  | some (.verdict .shortCircuit v) => return v
  | _ =>
    let result ← x.outcome m o
    let result ← match ← x.decision m o (m.hook? .after m.name) [result] with
      | some (.verdict .replace v) => pure v
      | _ => pure result
    x.watch m o (m.hook? .after Advice.all) [.str m.memberId, result]
    return result

end Scene

/--
Called in any scene and on any occasion, the code of a method does what the contract of the method says: it changes the
state in the same way, and returns or fails as that does.
-/
def Source.Method.RunsByContract (b : Blueprint) (m : MethodDef) (c : Source.Method) : Prop :=
  ∀ (W : Type) (x : Scene W) (o : Occasion) (locals : Entries Value), x.Lawful b → o.Starts b m locals →
    Act.Agree x.Inv (Source.runBody x.surroundings locals (c.within b.name).body) (x.contract m o)

end Amalgam
