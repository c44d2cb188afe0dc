import Amalgam.Combinator
import Amalgam.Literal

/-!
Blueprints: complete plans of composite classes.

A blueprint says which classes a composite extends, which fields it copies, which methods it generates and how each of
them calls its contributors, and under which names its code refers to all these symbols.
-/

namespace Amalgam

/-- Who a composite is made of, by paths. -/
structure Header where
  name : String
  base : String
  mixins : List String := []
  capabilitySets : List String := []
  /-- Capability sets that need not be listed, because a listed class brings them. -/
  baseCapabilitySets : List String := []
  deriving DecidableEq, Repr, Inhabited

/-- The capability sets to be listed next to the base. -/
def Header.extraBases (h : Header) : List String :=
  h.capabilitySets.filter fun c => !h.baseCapabilitySets.contains c

/-- A field of a composite and the contributor it comes from. -/
structure FieldDef where
  name : String
  default : Option String
  origin : String
  hint : Option String := none
  visibility : Visibility := .free
  isDescriptor : Bool := false
  deriving DecidableEq, Repr, Inhabited

/-- A call of one contributor's member. -/
structure MemberCall where
  contributor : String
  member : String
  deriving DecidableEq, Repr, Inhabited

/-- What a generated method does between its hooks. -/
inductive Core where
  | call (target : MemberCall)
  | combine (combinator : String) (targets : List MemberCall)
  deriving DecidableEq, Repr

/-- The calls of a core in order. -/
def Core.targets : Core → List MemberCall
  | call target => [target]
  | combine _ targets => targets

/-- A generated method. -/
structure MethodDef where
  name : String
  memberId : String
  signature : Signature
  /-- The contributor that signature and defaults are taken from. -/
  reference : String
  core : Core
  before : List Advice.Call := []
  after : List Advice.Call := []
  deriving DecidableEq, Repr

namespace MethodDef

def isAdvised (m : MethodDef) : Bool := !m.before.isEmpty || !m.after.isEmpty

/-- Whether a default is read back from the reference, since its text is no literal. -/
def hasComputedDefaults (m : MethodDef) : Bool :=
  m.signature.params.any fun p => match p.default with
    | some text => !isLiteral text
    | none => false

def contributors (m : MethodDef) : List String := m.core.targets.map MemberCall.contributor

end MethodDef

/-- A complete plan. -/
structure Blueprint where
  header : Header
  fields : List FieldDef := []
  methods : List MethodDef := []
  /-- The symbols that the code refers to, by path. -/
  symbols : Entries SymbolRef := []
  /-- The name of each symbol in the code, by path. -/
  aliases : Entries String := []
  /-- The live objects behind symbols, as far as they are known. -/
  bindings : Entries Handle := []
  deriving DecidableEq, Repr

namespace Blueprint

def name (b : Blueprint) : String := b.header.name

def memberNames (b : Blueprint) : List String := b.methods.map MethodDef.name

def fieldNames (b : Blueprint) : List String := b.fields.map FieldDef.name

/-- The first method of a name. -/
def method? (b : Blueprint) (name : String) : Option MethodDef := b.methods.find? (·.name == name)

end Blueprint

/-- The code names of the symbols that generated code itself relies on. -/
def SymbolRef.shortCircuit : SymbolRef := ⟨"class_mixer.advice", "ShortCircuit"⟩

def SymbolRef.replace : SymbolRef := ⟨"class_mixer.advice", "Replace"⟩

def SymbolRef.parameterDefault : SymbolRef := ⟨"class_mixer.runtime", "parameter_default"⟩

def SymbolRef.execute : SymbolRef := ⟨"class_mixer.combinators", "execute"⟩

def SymbolRef.lastDecision : SymbolRef := ⟨"class_mixer.combinators", "last_decision"⟩

end Amalgam
