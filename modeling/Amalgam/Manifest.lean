import Amalgam.Symbol

/-!
Manifests: what a composite needs to know of a contributing class.
-/

namespace Amalgam

/-- The part a contributor plays. -/
inductive Role where
  | base
  | mixin
  deriving DecidableEq, Repr

/-- Who may use a member, by its name. -/
inductive Visibility where
  | free
  | guarded
  | hidden
  deriving DecidableEq, Repr

/-- How a method is bound. -/
inductive MemberKind where
  | ofInstance
  | static
  | ofClass
  deriving DecidableEq, Repr

/-- How a parameter takes arguments. -/
inductive ParamKind where
  | positionalOnly
  | positionalOrKeyword
  | varPositional
  | keywordOnly
  | varKeyword
  deriving DecidableEq, Repr

def Role.text : Role → String
  | base => "base"
  | mixin => "mixin"

def Role.all : List Role := [base, mixin]

def Visibility.text : Visibility → String
  | free => "public"
  | guarded => "protected"
  | hidden => "private"

def Visibility.all : List Visibility := [free, guarded, hidden]

def MemberKind.text : MemberKind → String
  | ofInstance => "instance"
  | static => "static"
  | ofClass => "class"

def MemberKind.all : List MemberKind := [ofInstance, static, ofClass]

def ParamKind.text : ParamKind → String
  | positionalOnly => "positional_only"
  | positionalOrKeyword => "positional_or_keyword"
  | varPositional => "var_positional"
  | keywordOnly => "keyword_only"
  | varKeyword => "var_keyword"

def ParamKind.all : List ParamKind :=
  [positionalOnly, positionalOrKeyword, varPositional, keywordOnly, varKeyword]

/-- A parameter, the receiver apart. Default and hint are source texts. -/
structure Param where
  name : String
  kind : ParamKind := .positionalOrKeyword
  default : Option String := none
  hint : Option String := none
  deriving DecidableEq, Repr, Inhabited

/-- One method. -/
structure Signature where
  name : String
  kind : MemberKind := .ofInstance
  visibility : Visibility := .free
  params : List Param := []
  isAbstract : Bool := false
  isFinal : Bool := false
  isAsync : Bool := false
  deriving DecidableEq, Repr, Inhabited

/-- One field. -/
structure Field where
  name : String
  default : Option String := none
  hint : Option String := none
  visibility : Visibility := .free
  isStatic : Bool := false
  isDescriptor : Bool := false
  deriving DecidableEq, Repr, Inhabited

/-- A contributing class: its members and fields in order of discovery, and the capability sets it inherits. -/
structure Manifest where
  ref : SymbolRef
  members : List Signature := []
  fields : List Field := []
  capabilitySets : List SymbolRef := []
  deriving DecidableEq, Repr, Inhabited

/-- The first member of a name. -/
def Manifest.member? (m : Manifest) (name : String) : Option Signature := m.members.find? (·.name == name)

/-- The field in which a composite records its contributors. -/
def reservedField : String := "__mixer__"

/-- Constructors, destructors and the hooks of class creation. -/
def constructorNames : List String :=
  ["__init__", "__new__", "__del__", "__init_subclass__", "__class_getitem__", "__subclasshook__"]

/-- Whether a method makes or destroys objects or classes. -/
def Signature.isConstructor (s : Signature) : Bool := constructorNames.contains s.name

/--
Whether a member may be taken from a contributor in a role. Abstract, private and constructing members never are; a
mixin gives free members only, and the base no final ones, since those are inherited as they are.
-/
def Signature.isEligible (s : Signature) (role : Role) : Bool :=
  !s.isAbstract && !s.isConstructor && s.visibility != .hidden &&
    !(role == .mixin && s.visibility == .guarded) && !(role == .base && s.isFinal)

/-- The members of a contributor that may be taken from it. -/
def Manifest.eligibleMembers (m : Manifest) (role : Role) : List Signature :=
  m.members.filter (·.isEligible role)

/--
The visibility that a name tells. Two leading underscores hide a name unless two follow as well; so does the mark left
on a private name by one of the owning classes; one leading underscore guards it.
-/
def nameVisibility (name : String) (owners : List String) : Visibility :=
  if name.startsWith "__" then
    if name.endsWith "__" then .free else .hidden
  else if owners.any fun owner =>
      let mark := "_" ++ String.ofList (owner.toList.dropWhile (· == '_')) ++ "__"
      name.startsWith mark && name.length > mark.length then .hidden
  else if name.startsWith "_" then .guarded
  else .free

end Amalgam
