import Amalgam.Text.CharSet

/-!
References to classes and functions: a module and a qualified name, written `module:qualname`.

`parse?` reads the written form and the dotted shorthand.
-/

namespace Amalgam

/-- The address of a class or function. -/
structure SymbolRef where
  home : String
  qualname : String
  deriving DecidableEq, Repr, Inhabited

namespace SymbolRef

/-- The written form. -/
def path (r : SymbolRef) : String := r.home ++ ":" ++ r.qualname

/-- The last component of the qualified name. -/
def name (r : SymbolRef) : String := (Text.splitOnChar '.' r.qualname).getLast?.getD ""

/-- Whether generated code can import the symbol: it is neither local to a function nor a numbered variant. -/
def importable (r : SymbolRef) : Bool :=
  !r.qualname.toList.contains '<' && !r.qualname.toList.contains '#'

/-- The reference of the n-th object with this name. -/
def variant (r : SymbolRef) (n : Nat) : SymbolRef := { r with qualname := r.qualname ++ "#" ++ toString n }

/-- Reads a reference from characters: split at the first colon, or else at the last dot. -/
def ofChars? (cs : List Char) : Option (List Char × List Char) :=
  let parts : List Char × List Char :=
    if cs.contains ':' then (cs.takeWhile (· != ':'), (cs.dropWhile (· != ':')).drop 1)
    else
      let back := cs.reverse
      (((back.dropWhile (· != '.')).drop 1).reverse, (back.takeWhile (· != '.')).reverse)
  if parts.1.isEmpty || parts.2.isEmpty then none else some parts

/-- Reads a reference, white space around it dropped. -/
def parse? (text : String) : Option SymbolRef :=
  (ofChars? (Text.trimList Text.isBlank text.toList)).map fun p => ⟨String.ofList p.1, String.ofList p.2⟩

end SymbolRef

end Amalgam
