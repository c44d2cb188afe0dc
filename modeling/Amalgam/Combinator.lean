import Amalgam.FirstFree
import Amalgam.Notice
import Amalgam.Provider

/-!
Combinators: the functions that join the results of several contributors of one member.

A caller registers an entry per member. `parseAll` reads the entries into specs, giving each distinct callable a
reference of its own; `resolve` says, for one member, which function joins which contributors in which order.
-/

namespace Amalgam

/-- The state of a plan: that of its provider, and the notices so far. -/
structure Planning (σ : Type) where
  provider : σ
  notices : List Notice := []

/-- A step of planning. -/
abbrev Planner (σ α : Type) := Act (Planning σ) α

namespace Planner

variable {σ α : Type}

/-- Asks the provider. -/
def ask (question : Act σ α) : Planner σ α :=
  Act.within Planning.provider (fun s t => { t with provider := s }) question

/-- Leaves a notice. -/
def note (n : Notice) : Planner σ Unit := modify fun t => { t with notices := t.notices ++ [n] }

/-- Meets a name that nothing answers to: strict plans refuse it, lenient ones note that it is dropped. -/
def unknown (strict : Bool) (cause : Unknown) : Planner σ Unit :=
  if strict then Act.refuse (.unknown cause) else note (.ignored cause)

end Planner

/-- What may be given for a combination function. -/
inductive Callee where
  | text (path : String)
  | live (handle : Handle) (ref : SymbolRef)
  /-- Something that can be called but has no name. -/
  | nameless (shown : String)
  | other (shown : String)
  deriving DecidableEq, Repr

/-- A combination function, the order of contributors if one is given, and the live function if there is one. -/
structure CombinatorSpec where
  function : SymbolRef
  order : Option (List SymbolRef) := none
  binding : Option Handle := none
  deriving DecidableEq, Repr

/-- What a caller may register for a member. -/
inductive CombinatorEntry where
  | ready (spec : CombinatorSpec)
  | single (function : Callee)
  | ordered (function : Callee) (order : List TypeLike)
  /-- A sequence that is no pair of a function and a list. -/
  | badSequence (shown : String)
  deriving DecidableEq, Repr

namespace CombinatorSpec

variable {σ : Type}

/-- The spec of a function. -/
def of (f : Callee) (order : Option (List SymbolRef)) : Act σ CombinatorSpec :=
  match f with
  | .text path => do return { function := ← Provider.parse path, order }
  | .live handle ref => pure { function := ref, order, binding := some handle }
  | .nameless shown => Act.refuse (.noReference shown)
  | .other shown => Act.refuse (.badCombination shown)

/-- Refuses an order that names a class outside the mix. -/
def checkOrder (member : String) (participants : List SymbolRef) (spec : CombinatorSpec) : Act σ Unit :=
  match (spec.order.getD []).find? fun r => !(participants.map SymbolRef.path).contains r.path with
  | some r => Act.refuse (.strangerInOrder member r.path)
  | none => pure ()

/-- Reads one entry. -/
def parse (p : Provider σ) (participants : List SymbolRef) (member : String) (entry : CombinatorEntry) :
    Act σ CombinatorSpec := do
  let spec ← match entry with
    | .ready spec => pure spec
    | .ordered f order => do
      let refs ← order.mapM p.resolve
      of f (some refs)
    | .badSequence shown => Act.refuse (.badPair member shown)
    | .single (.other shown) => Act.refuse (.badCombinator member shown)
    | .single f => of f none
  checkOrder member participants spec
  return spec

/-- The n-th reference tried for an object: its own first, numbered variants after it. -/
def nthRef (r : SymbolRef) (n : Nat) : SymbolRef := if n ≤ 1 then r else r.variant n

/-- Gives a live function a reference that no other live function has. -/
def claim (claimed : Entries Handle) (spec : CombinatorSpec) : CombinatorSpec × Entries Handle :=
  match spec.binding with
  | none => (spec, claimed)
  | some handle =>
    let free := fun n =>
      match claimed.get? (nthRef spec.function n).path with
      | some other => other == handle
      | none => true
    let ref := nthRef spec.function (firstFree free claimed.length 1)
    ({ spec with function := ref }, claimed.put ref.path handle)

/-- Reads entries one after another, given the specs and claims so far. -/
def parseFrom (p : Provider σ) (participants : List SymbolRef) :
    Entries CombinatorSpec → Entries Handle → List (String × CombinatorEntry) → Act σ (Entries CombinatorSpec)
  | specs, _, [] => pure specs
  | specs, claimed, (member, entry) :: rest => do
    let spec ← parse p participants member entry
    let (spec, claimed) := claim claimed spec
    parseFrom p participants (specs.put member spec) claimed rest

/-- Reads all entries, keeping their order. -/
def parseAll (p : Provider σ) (participants : List SymbolRef) (entries : Entries CombinatorEntry) :
    Act σ (Entries CombinatorSpec) :=
  parseFrom p participants [] [] entries

/-- The combinator of a member and the contributors it joins; an order that names none of them counts for nothing. -/
def resolve (member : String) (contributors : List SymbolRef) (spec : Option CombinatorSpec) :
    Planner σ (Option CombinatorSpec × List SymbolRef) :=
  match spec with
  | none => pure (none, contributors)
  | some spec =>
    match spec.order with
    | none => pure (some spec, contributors)
    | some order => do
      let ordered := order.filter fun r => (contributors.map SymbolRef.path).contains r.path
      if ordered.isEmpty then
        Planner.note (.orderFallback member)
        return (none, contributors)
      else return (some spec, ordered)

end CombinatorSpec

end Amalgam
