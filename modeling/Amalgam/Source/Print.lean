import Amalgam.Source.Layout
import Amalgam.Source
import Amalgam.Blueprint.Alias
import Amalgam.Text.Quoted

/-!
The text of code.

Fields stand one a line, each method is preceded by an indented blank line, and in an artifact two blank lines divide the
imports from the class.
-/

namespace Amalgam.Source

/-- The line that marks an artifact as generated. -/
def banner : String := "# This file was auto-generated by class-mixer. DO NOT EDIT MANUALLY."

def Target.print (t : Target) : String := String.intercalate "." (t.head :: t.attributes)

def Arg.print : Arg → String
  | name n => n
  | text t => Text.Quoted.quote t
  | spread n => "*" ++ n
  | named k v => k ++ "=" ++ v
  | spreadNamed n => "**" ++ n

def Call.print (c : Call) : String :=
  (if c.isAwaited then "await " else "") ++ c.target.print ++ "(" ++ String.intercalate ", " (c.args.map Arg.print) ++ ")"

def Work.print : Work → String
  | call c => c.print
  | combine f cs => f ++ "(" ++ String.intercalate ", " (cs.map Call.print) ++ ")"

/-- The test of a decision. -/
def testOf (cls : String) : String := "if isinstance(" ++ Alias.decisionSlot ++ ", " ++ cls ++ "):"

/-- The lines of a statement, not indented. -/
def Stmt.print : Stmt → List String
  | observe c => [c.print]
  | decide c => [Alias.decisionSlot ++ " = " ++ c.print]
  | leaveOn cls => [testOf cls, "    return " ++ Alias.decisionSlot ++ ".value"]
  | keep w => [Alias.returnSlot ++ " = " ++ w.print]
  | replaceOn cls => [testOf cls, "    " ++ Alias.returnSlot ++ " = " ++ Alias.decisionSlot ++ ".value"]
  | finish => ["return " ++ Alias.returnSlot]
  | give w => ["return " ++ w.print]

def Default.print : Default → String
  | literal text => (Layout.paramText? text).getD text
  | readBack reader function param => reader ++ "(" ++ function.print ++ ", " ++ Text.Quoted.quote param ++ ")"

/-- The stars that mark a parameter taking any number of arguments. -/
def starsOf : ParamKind → String
  | .varPositional => "*"
  | .varKeyword => "**"
  | _ => ""

def Formal.print (f : Formal) : String :=
  starsOf f.kind ++ f.name ++ (f.hint.map (": " ++ ·)).getD "" ++ (f.default.map (" = " ++ ·.print)).getD ""

/-- The parameters, with the marks that divide their kinds. -/
def printFormals (fs : List Formal) : String :=
  let of := fun kind => (fs.filter fun f => f.kind == kind).map Formal.print
  let slash := if (of .positionalOnly).isEmpty then [] else ["/"]
  let star := if (of .varPositional).isEmpty && !(of .keywordOnly).isEmpty then ["*"] else []
  String.intercalate ", "
    (of .positionalOnly ++ slash ++ of .positionalOrKeyword ++ of .varPositional ++ star ++ of .keywordOnly ++
      of .varKeyword)

/-- The lines of a method, not indented. -/
def Method.print (m : Method) : List String :=
  let decorator := match m.kind with
    | .ofInstance => []
    | .static => ["@staticmethod"]
    | .ofClass => ["@classmethod"]
  let header := (if m.isAsync then "async def " else "def ") ++ m.name ++ "(" ++ printFormals m.formals ++ "):"
  "" :: decorator ++ [header] ++ (m.body.flatMap Stmt.print).map ("    " ++ ·)

/-- The value of a field, and what else stands on its line. -/
def Init.print (name : String) : Init → String × String
  | literal text => (Layout.fieldText? text).getD (text, "")
  | copied owner => (owner ++ "." ++ name, "")

/-- The line of a field; the remark on its former visibility takes the place of a comment. -/
def FieldLine.print (f : FieldLine) : String :=
  let (value, tail) := match f.value with
    | some v =>
      let (value, tail) := v.print f.name
      (" = " ++ value, tail)
    | none => ("", "")
  let tail := match f.visibility with
    | .free => tail
    | v => "  # was " ++ v.text
  f.name ++ (f.hint.map (": " ++ ·)).getD "" ++ value ++ tail

/-- The lines of the class. -/
def Class.print (c : Class) : List String :=
  let body := c.fields.map FieldLine.print ++ c.methods.flatMap Method.print
  ("class " ++ c.name ++ "(" ++ String.intercalate ", " c.bases ++ "):") ::
    (if body.isEmpty then ["pass"] else body).map ("    " ++ ·)

/-- The lines of an import. -/
def Import.print (i : Import) : List String :=
  ("from " ++ i.home ++ " import " ++ i.head ++ " as " ++ i.boundAs) ::
    (if i.rest.isEmpty then [] else [i.boundAs ++ " = " ++ i.boundAs ++ "." ++ i.rest])

/-- The lines of code. -/
def Code.lines (c : Code) : List String :=
  let imports := c.imports.flatMap Import.print
  (if c.isArtifact then [banner] else []) ++ imports ++ (if imports.isEmpty then [] else ["", ""]) ++ c.cls.print

/-- The text of code. -/
def Code.print (c : Code) : String := String.join (c.lines.map (· ++ "\n"))

end Amalgam.Source
