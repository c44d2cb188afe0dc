import Amalgam.Source
import Amalgam.Text.Name

/-!
Private names in generated code.

Inside the body of a class, a name that begins with two underscores stands for itself with the name of the class in
front. Only the keywords of calls are exempt.
-/

namespace Amalgam.Source

open Text (privateName)

def Target.within (owner : String) (t : Target) : Target where
  head := privateName owner t.head
  attributes := t.attributes.map (privateName owner)

def Arg.within (owner : String) : Arg → Arg
  | name n => name (privateName owner n)
  | text t => text t
  | spread n => spread (privateName owner n)
  | named k v => named k (privateName owner v)
  | spreadNamed n => spreadNamed (privateName owner n)

def Call.within (owner : String) (c : Call) : Call :=
  { c with target := c.target.within owner, args := c.args.map (Arg.within owner) }

def Work.within (owner : String) : Work → Work
  | call c => call (c.within owner)
  | combine f cs => combine (privateName owner f) (cs.map (Call.within owner))

def Stmt.within (owner : String) : Stmt → Stmt
  | observe c => observe (c.within owner)
  | decide c => decide (c.within owner)
  | leaveOn cls => leaveOn (privateName owner cls)
  | keep w => keep (w.within owner)
  | replaceOn cls => replaceOn (privateName owner cls)
  | finish => finish
  | give w => give (w.within owner)

def Default.within (owner : String) : Default → Default
  | literal text => literal text
  | readBack reader function param => readBack (privateName owner reader) (function.within owner) param

def Formal.within (owner : String) (f : Formal) : Formal :=
  { f with name := privateName owner f.name, default := f.default.map (Default.within owner) }

def Method.within (owner : String) (m : Method) : Method :=
  { m with
    name := privateName owner m.name
    formals := m.formals.map (Formal.within owner)
    body := m.body.map (Stmt.within owner) }

end Amalgam.Source
