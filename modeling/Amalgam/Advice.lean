/-!
Advice hooks: methods that are called before or after others.

`BEFORE_ALL` and `AFTER_ALL` watch every advised call; `BEFORE_m` may skip a call of `m` and `AFTER_m` may replace its
result. `weave` lists the hooks of one member in the order in which they are called.
-/

namespace Amalgam

/-- The two places around a call. -/
inductive Phase where
  | before
  | after
  deriving DecidableEq, Repr

/-- Whether a hook watches every call or those of one member. -/
inductive Scope where
  | catchAll
  | member
  deriving DecidableEq, Repr

def Phase.text : Phase → String
  | before => "before"
  | after => "after"

/-- The word at the start of a sentence. -/
def Phase.title : Phase → String
  | before => "Before"
  | after => "After"

def Scope.text : Scope → String
  | catchAll => "global"
  | member => "member"

/-- What the names of a phase's hooks begin with. -/
def Phase.mark : Phase → String
  | before => "BEFORE_"
  | after => "AFTER_"

namespace Advice

/-- The member name that stands for all. -/
def all : String := "ALL"

/-- The hook of a member. -/
def hook (phase : Phase) (member : String) : String := phase.mark ++ member

/-- The hook of all members. -/
def catchAll (phase : Phase) : String := hook phase all

/-- Whether a name is one of a hook. -/
def isHook (name : String) : Bool := name.startsWith "BEFORE_" || name.startsWith "AFTER_"

/-- Whether a name is one of the two hooks of all members. -/
def isCatchAll (name : String) : Bool := name == catchAll .before || name == catchAll .after

/-- A planned call of a hook. -/
structure Call where
  hook : String
  phase : Phase
  scope : Scope
  isAsync : Bool := false
  deriving DecidableEq, Repr

/-- The hooks around one member, in the order of their calls. -/
structure Plan where
  memberId : String
  before : List Call := []
  after : List Call := []
  deriving DecidableEq, Repr

/-- The name under which the hooks of all members learn of a call. -/
def memberId (composite member : String) : String := composite ++ "." ++ member

/-- The call of a hook, if it is defined. -/
def callOf (defined awaited : List String) (phase : Phase) (scope : Scope) (name : String) : List Call :=
  if defined.contains name then [⟨name, phase, scope, awaited.contains name⟩] else []

/-- The hooks around a member that is no hook itself: the general before the special one, and after it in reverse. -/
def weave (composite member : String) (before after : Bool) (defined awaited : List String) : Plan :=
  if isHook member then { memberId := memberId composite member }
  else
    { memberId := memberId composite member
      before :=
        if before then
          callOf defined awaited .before .catchAll (catchAll .before) ++
            callOf defined awaited .before .member (hook .before member)
        else []
      after :=
        if after then
          callOf defined awaited .after .member (hook .after member) ++
            callOf defined awaited .after .catchAll (catchAll .after)
        else [] }

end Advice

end Amalgam
