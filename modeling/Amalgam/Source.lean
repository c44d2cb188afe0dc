import Amalgam.Blueprint

/-!
The code of a composite as a tree.

The code has few shapes: a class with fields and methods, and methods that call hooks and contributors. So a call is a
dotted target with arguments that are names or texts, and a body is a list of the eight statements below.
-/

namespace Amalgam.Source

/-- A name followed by attributes. -/
structure Target where
  head : String
  attributes : List String := []
  deriving DecidableEq, Repr, Inhabited

/-- An argument of a call. -/
inductive Arg where
  | name (name : String)
  | text (value : String)
  | spread (name : String)
  | named (name value : String)
  | spreadNamed (name : String)
  deriving DecidableEq, Repr

/-- A call, awaited or not. -/
structure Call where
  target : Target
  args : List Arg
  isAwaited : Bool := false
  deriving DecidableEq, Repr

/-- What gives the result of a method: one call, or a function of the results of several. -/
inductive Work where
  | call (call : Call)
  | combine (function : String) (calls : List Call)
  deriving DecidableEq, Repr

/-- A statement of a body. -/
inductive Stmt where
  /-- Calls a hook and ignores what it returns. -/
  | observe (call : Call)
  /-- Calls a hook and keeps what it decides. -/
  | decide (call : Call)
  /-- Returns the carried value if the decision is of the named class. -/
  | leaveOn (cls : String)
  /-- Keeps the result of the work. -/
  | keep (work : Work)
  /-- Takes the carried value for the result if the decision is of the named class. -/
  | replaceOn (cls : String)
  /-- Returns the result kept. -/
  | finish
  /-- Returns the result of the work. -/
  | give (work : Work)
  deriving DecidableEq, Repr

/-- The default of a parameter: a literal as it is written, or one read back from a function. -/
inductive Default where
  | literal (text : String)
  | readBack (reader : String) (function : Target) (param : String)
  deriving DecidableEq, Repr

/-- A parameter, the receiver included. -/
structure Formal where
  name : String
  kind : ParamKind
  hint : Option String := none
  default : Option Default := none
  deriving DecidableEq, Repr

/-- A method. -/
structure Method where
  name : String
  kind : MemberKind
  isAsync : Bool
  receiver : Option String
  /-- The parameters in the order of their kinds, the receiver first. -/
  formals : List Formal
  body : List Stmt
  deriving DecidableEq, Repr

/-- The value of a field: a literal as it is written, or an attribute of a contributor. -/
inductive Init where
  | literal (text : String)
  | copied (owner : String)
  deriving DecidableEq, Repr

/-- A field; without a value it is only declared. -/
structure FieldLine where
  name : String
  hint : Option String := none
  value : Option Init := none
  visibility : Visibility := .free
  deriving DecidableEq, Repr

/-- The class. -/
structure Class where
  name : String
  bases : List String
  fields : List FieldLine
  methods : List Method
  deriving DecidableEq, Repr

/-- The import of one symbol: the head of its name, and the attributes that lead from there to it. -/
structure Import where
  home : String
  head : String
  rest : String
  boundAs : String
  deriving DecidableEq, Repr

/-- A whole text of code; an artifact carries its imports and says that it was generated. -/
structure Code where
  isArtifact : Bool
  imports : List Import := []
  cls : Class
  deriving DecidableEq, Repr

end Amalgam.Source
