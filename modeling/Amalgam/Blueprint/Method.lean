import Amalgam.Blueprint

/-!
Generated methods: the core of one member and the hooks around it.
-/

namespace Amalgam.MethodDef

/-- The core of a member: a combination of all contributors in order, or a plain call of the first one. -/
def coreOf (member : String) (ordered : List SymbolRef) (combinator : Option SymbolRef) : Option Core :=
  let call := fun (r : SymbolRef) => MemberCall.mk r.path member
  match combinator, ordered with
  | _, [r] => some (.call (call r))
  | some f, _ => some (.combine f.path (ordered.map call))
  | none, r :: _ => some (.call (call r))
  | none, [] => none

/-- The method of a member. Hooks carry no advice themselves; a plain call needs a contributor. -/
def synthesize (member : String) (ordered : List SymbolRef) (combinator : Option SymbolRef) (plan : Advice.Plan)
    (signature : Signature) (reference : SymbolRef) : Except Failure MethodDef :=
  match coreOf member ordered combinator with
  | none => .error (.fault .index)
  | some core =>
    .ok
      { name := member
        memberId := plan.memberId
        signature := signature
        reference := reference.path
        core := core
        before := if Advice.isHook member then [] else plan.before
        after := if Advice.isHook member then [] else plan.after }

end Amalgam.MethodDef
