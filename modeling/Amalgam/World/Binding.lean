import Amalgam.Entries
import Amalgam.Manifest
import Amalgam.Text.CharSet
import Amalgam.Value

/-!
Binding the arguments of a call to the parameters of a function.

Positional arguments go to positional parameters in order, keywords to parameters of their names, what is left over to the
parameters that take any number of arguments, and defaults fill the gaps. A binding assigns every parameter a value.
-/

namespace Amalgam

/-- An annotation of a live class or function. -/
inductive Hint where
  | text (text : String)
  | type (name : String)
  /-- The mark of a static field, perhaps with the type of the field. -/
  | classVar (type : Option String)
  | optional (type : String)
  deriving DecidableEq, Repr

namespace Hint

/-- The text under which a manifest records an annotation. -/
def spell : Hint → String
  | text t => t
  | type name => name
  | classVar (some name) => "typing.ClassVar[" ++ name ++ "]"
  | classVar none => "typing.ClassVar"
  | optional name => "typing.Optional[" ++ name ++ "]"

/-- Whether an annotation marks a static field; texts are judged by how they begin. -/
def isStatic : Hint → Bool
  | text t => (Text.strip t).startsWith "ClassVar" || (Text.strip t).startsWith "typing.ClassVar"
  | classVar _ => true
  | _ => false

end Hint

/-- A parameter of a live function. -/
structure Parameter where
  name : String
  kind : ParamKind := .positionalOrKeyword
  default : Option Value := none
  hint : Option Hint := none
  deriving Inhabited

namespace Parameter

/-- Whether a parameter takes one positional argument. -/
def isPositional (p : Parameter) : Bool := p.kind == .positionalOnly || p.kind == .positionalOrKeyword

/-- Whether a parameter may be given by its name. -/
def isNamed (p : Parameter) : Bool := p.kind == .positionalOrKeyword || p.kind == .keywordOnly

/-- The keywords that no parameter is named by. -/
def extra (ps : List Parameter) (keywords : Entries Value) : Entries Value :=
  keywords.filter fun e => !ps.any fun p => p.isNamed && p.name == e.1

/-- A table of keywords as a value. -/
def tableOf (keywords : Entries Value) : Value := .dict (keywords.map fun e => (.str e.1, e.2))

/-- Binds parameters in order, given the positional arguments left, all keywords, and those no parameter is named by. -/
def bindFrom (keywords extra : Entries Value) : List Parameter → List Value → Option (Entries Value)
  | [], [] => some []
  | [], _ :: _ => none
  | p :: ps, positional =>
    let given := if p.isNamed then keywords.get? p.name else none
    match p.kind, positional with
    | .varPositional, vs => (bindFrom keywords extra ps []).map ((p.name, .tuple vs) :: ·)
    | .varKeyword, vs => (bindFrom keywords extra ps vs).map ((p.name, tableOf extra) :: ·)
    | .keywordOnly, vs => do
      let v ← given <|> p.default
      (bindFrom keywords extra ps vs).map ((p.name, v) :: ·)
    | _, v :: vs => if given.isSome then none else (bindFrom keywords extra ps vs).map ((p.name, v) :: ·)
    | _, [] => do
      let v ← given <|> p.default
      (bindFrom keywords extra ps []).map ((p.name, v) :: ·)

section BindFrom

variable {p : Parameter} {ps : List Parameter} {args : List Value} {keywords surplus : Entries Value}

/-- What keywords give to a parameter. -/
def given? (keywords : Entries Value) (p : Parameter) : Option Value :=
  if p.isNamed then keywords.get? p.name else none

theorem isSome_given?_iff : (p.given? keywords).isSome = true ↔ p.isNamed = true ∧ p.name ∈ keywords.keys := by
  have hget : (keywords.get? p.name).isSome = true ↔ p.name ∈ keywords.keys := by
    rw [← Option.ne_none_iff_isSome, ne_eq, Entries.get?_eq_none_iff, Decidable.not_not]
  unfold given?
  split <;> simp [*]

theorem bindFrom_place (hp : p.isPositional = true) (v : Value) : bindFrom keywords surplus (p :: ps) (v :: args) =
    if (p.given? keywords).isSome then none else (bindFrom keywords surplus ps args).map ((p.name, v) :: ·) := by
  obtain ⟨name, kind, default, hint⟩ := p
  cases kind <;> first | rfl | cases hp

theorem bindFrom_name (hp : p.isPositional = true) : bindFrom keywords surplus (p :: ps) [] =
    ((p.given? keywords <|> p.default).bind fun v => (bindFrom keywords surplus ps []).map ((p.name, v) :: ·)) := by
  obtain ⟨name, kind, default, hint⟩ := p
  cases kind <;> first | rfl | cases hp

theorem bindFrom_keywordOnly (hp : p.kind = .keywordOnly) : bindFrom keywords surplus (p :: ps) args =
    ((p.given? keywords <|> p.default).bind fun v => (bindFrom keywords surplus ps args).map ((p.name, v) :: ·)) := by
  obtain ⟨name, kind, default, hint⟩ := p
  cases hp
  cases args <;> rfl

theorem bindFrom_varPositional (hp : p.kind = .varPositional) : bindFrom keywords surplus (p :: ps) args =
    (bindFrom keywords surplus ps []).map ((p.name, .tuple args) :: ·) := by
  obtain ⟨name, kind, default, hint⟩ := p
  cases hp
  cases args <;> rfl

theorem bindFrom_varKeyword (hp : p.kind = .varKeyword) : bindFrom keywords surplus (p :: ps) args =
    (bindFrom keywords surplus ps args).map ((p.name, tableOf surplus) :: ·) := by
  obtain ⟨name, kind, default, hint⟩ := p
  cases hp
  cases args <;> rfl

theorem kind_cases (p : Parameter) :
    p.isPositional = true ∨ p.kind = .keywordOnly ∨ p.kind = .varPositional ∨ p.kind = .varKeyword := by
  obtain ⟨name, kind, default, hint⟩ := p
  cases kind <;> simp [isPositional]

end BindFrom

/-- The values of all parameters in a call, if the arguments fit. -/
def bind? (ps : List Parameter) (positional : List Value) (keywords : Entries Value) : Option (Entries Value) :=
  let extra := extra ps keywords
  if !extra.isEmpty && !ps.any fun p => p.kind == .varKeyword then none
  else bindFrom keywords extra ps positional

end Parameter

end Amalgam
