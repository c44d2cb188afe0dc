import Amalgam.Blueprint.Alias
import Amalgam.Blueprint.Cutpoints
import Amalgam.Blueprint.Fields
import Amalgam.Blueprint.Method

/-!
Building a blueprint from a request.

The contributors are resolved, their capability sets united, their fields and members collected, combinators and
cutpoints read, and the methods that need generated code planned. Names that nothing answers to are met on the way:
a strict build refuses the first of them, a lenient one notes and drops each.
-/

namespace Amalgam

/-- What a caller asks for. -/
structure Request where
  name : String
  base : TypeLike
  mixins : List TypeLike := []
  combinators : Entries CombinatorEntry := []
  before : Cutpoints := .nothing
  after : Cutpoints := .nothing
  deriving Repr

/-- The members of a mix: for each name, the contributors that define it, with their signatures. -/
abbrev MemberMap := Entries (List (SymbolRef × Signature))

namespace MemberMap

/-- Adds one definition of a member. -/
def add (m : MemberMap) (r : SymbolRef) (s : Signature) : MemberMap := m.put s.name ((m.get? s.name).getD [] ++ [(r, s)])

/-- The hooks that must be awaited: the first definition decides. -/
def awaitedHooks (m : MemberMap) : List String :=
  (m.filter fun e => Advice.isHook e.1 && (e.2.head?.map fun d => d.2.isAsync).getD false).map Prod.fst

/-- The members that are no hooks. -/
def plain (m : MemberMap) : List String := m.keys.filter fun name => !Advice.isHook name

end MemberMap

namespace Blueprint

variable {σ : Type}

/-- The first path that occurs twice. -/
def repeated? : (seen : List String) → List SymbolRef → Option String
  | _, [] => none
  | seen, r :: rest => if seen.contains r.path then some r.path else repeated? (r.path :: seen) rest

/-- The references in order, each once. -/
def union (sets : List SymbolRef) : List SymbolRef :=
  sets.foldl (fun done r => if done.contains r then done else done ++ [r]) []

/-- The sets that a set inherits; a set without a manifest is taken to inherit none. -/
def setsAbove (p : Provider σ) (set : SymbolRef) : Planner σ (List SymbolRef) := fun t =>
  match (Planner.ask (p.capabilitySets set)).runFrom t with
  | (.error (.refusal _), t) => (Planner.note (.noAncestors set.path) *> pure []).runFrom t
  | (r, t) => (r, t)

/-- The paths of the sets that some of the given sets inherit. -/
def implied (p : Provider σ) : List SymbolRef → Planner σ (List String)
  | [] => pure []
  | set :: rest => do
    let above ← setsAbove p set
    return above.map SymbolRef.path ++ (← implied p rest)

/-- The sets that no other of the given sets inherits: listing a class next to its own subclass would break the order. -/
def minimal (p : Provider σ) (sets : List SymbolRef) : Planner σ (List SymbolRef) := do
  let above ← implied p sets
  return sets.filter fun r => !above.contains r.path

/-- Collects the members of the contributors, the first of which is the base. -/
def memberMap (p : Provider σ) : Role → MemberMap → List SymbolRef → Planner σ MemberMap
  | _, m, [] => pure m
  | role, m, r :: rest => do
    let members ← Planner.ask (p.eligibleMembers r role)
    memberMap p .mixin (members.foldl (fun m s => m.add r s) m) rest

/-- Meets the combinators of members that nobody defines. -/
def knownSpecs (strict : Bool) (members : List String) : Entries CombinatorSpec → Planner σ (Entries CombinatorSpec)
  | [] => pure []
  | (member, spec) :: rest => do
    if members.contains member then return (member, spec) :: (← knownSpecs strict members rest)
    else
      Planner.unknown strict (.combinator member)
      knownSpecs strict members rest

/-- The live functions that join hooks by default. -/
structure Defaults where
  execute : Handle
  lastDecision : Handle
  shortCircuit : Handle
  replace : Handle
  parameterDefault : Handle
  deriving DecidableEq, Repr

/-- The combinator of a hook that the caller registered none for. -/
def Defaults.specOf (d : Defaults) (hook : String) : CombinatorSpec :=
  if Advice.isCatchAll hook then { function := .execute, binding := some d.execute }
  else { function := .lastDecision, binding := some d.lastDecision }

/-- Adds the default combinators of the hooks of the given names. -/
def withDefaults (d : Defaults) (members : List String) (phase : Phase) (names : List String)
    (specs : Entries CombinatorSpec) : Entries CombinatorSpec :=
  names.foldl (fun specs name =>
    let hook := Advice.hook phase name
    if members.contains hook then specs.putNew hook (d.specOf hook) else specs) specs

/-- Drops the calls of hooks that a synchronous member cannot await. -/
def dropAwaited (strict : Bool) (member : String) : List Advice.Call → Planner σ (List Advice.Call)
  | [] => pure []
  | call :: rest => do
    if call.isAsync then
      Planner.unknown strict (.asyncHook call.hook member)
      dropAwaited strict member rest
    else return call :: (← dropAwaited strict member rest)

/-- The hooks that a member can call: an asynchronous one may call all of its plan. -/
def usablePlan (strict : Bool) (member : String) (isAsync : Bool) (plan : Advice.Plan) : Planner σ Advice.Plan :=
  if isAsync then pure plan
  else do
    let before ← dropAwaited strict member plan.before
    let after ← dropAwaited strict member plan.after
    return { plan with before, after }

/-- What the planning of the methods goes by. -/
structure Context where
  composite : String
  base : SymbolRef
  members : MemberMap
  specs : Entries CombinatorSpec
  before : List String
  after : List String

/-- Whether a member receives advice of a phase. -/
def Context.isEnabled (c : Context) (phase : Phase) (member : String) : Bool :=
  member != Advice.all && (match phase with
    | .before => c.before
    | .after => c.after).contains member

/-- Whether a member needs generated code: it is advised, or more than the base defines it. -/
def Context.needsMethod (c : Context) (member : String) (contributors : List SymbolRef) : Bool :=
  c.isEnabled .before member || c.isEnabled .after member || contributors.length > 1 ||
    contributors.head? != some c.base

/-- The hooks around a member. -/
def Context.plan (c : Context) (member : String) : Advice.Plan :=
  Advice.weave c.composite member (c.isEnabled .before member) (c.isEnabled .after member) c.members.keys
    c.members.awaitedHooks

/-- Plans the method of one member. -/
def planMethod (strict : Bool) (c : Context) (member : String) (definitions : List (SymbolRef × Signature)) :
    Planner σ (List MethodDef) :=
  let contributors := definitions.map Prod.fst
  match definitions with
  | [] => pure []
  | (reference, signature) :: _ =>
    if !c.needsMethod member contributors then pure []
    else do
      let (spec, ordered) ← CombinatorSpec.resolve member contributors (c.specs.get? member)
      let plan ← usablePlan strict member signature.isAsync (c.plan member)
      let method ← Act.ofExcept
        (MethodDef.synthesize member ordered (spec.map CombinatorSpec.function) plan signature reference)
      return [method]

/-- Plans the methods of all members in order. -/
def planMethods (strict : Bool) (c : Context) : MemberMap → Planner σ (List MethodDef)
  | [] => pure []
  | (member, definitions) :: rest => do
    let here ← planMethod strict c member definitions
    return here ++ (← planMethods strict c rest)

/-- Symbols with the live objects behind them. -/
abbrev Claims := List (SymbolRef × Option Handle)

/-- The symbols, each under its path once. -/
def symbolsOf (claims : Claims) : Entries SymbolRef := claims.foldl (fun t c => t.putNew c.1.path c.1) []

/-- The live objects of the symbols, the first of a path counting. -/
def bindingsOf (claims : Claims) : Entries Handle :=
  claims.foldl (fun t c => match c.2 with
    | some handle => t.putNew c.1.path handle
    | none => t) []

/-- The specs by the paths of their functions, the last of a path counting. -/
def specsByPath (specs : Entries CombinatorSpec) : Entries CombinatorSpec :=
  Entries.ofList (specs.map fun e => (e.2.function.path, e.2))

/-- The claim of the combination function that a method calls. -/
def combinatorClaim (specs : Entries CombinatorSpec) (m : MethodDef) : Except Failure Claims :=
  match m.core with
  | .combine f _ =>
    match (specsByPath specs).get? f with
    | some s => .ok [(s.function, s.binding)]
    | none => .error (.fault .key)
  | .call _ => .ok []

/-- The claims of the combination functions that methods call. -/
def combinatorClaims (specs : Entries CombinatorSpec) (methods : List MethodDef) : Except Failure Claims := do
  let claims ← methods.mapM (combinatorClaim specs)
  return claims.flatten

/-- The claims of the symbols that generated code relies on. -/
def supportClaims (d : Defaults) (methods : List MethodDef) : Claims :=
  (if methods.any fun m => !m.before.isEmpty then [(.shortCircuit, some d.shortCircuit)] else []) ++
    (if methods.any fun m => !m.after.isEmpty then [(.replace, some d.replace)] else []) ++
    (if methods.any MethodDef.hasComputedDefaults then [(.parameterDefault, some d.parameterDefault)] else [])

/-- The names that aliases must avoid. -/
def reservedNames (name : String) (fields : List FieldDef) (methods : List MethodDef) : List String :=
  Alias.fixedNames ++ [name] ++ fields.map FieldDef.name ++
    methods.flatMap fun m => m.name :: m.signature.params.map Param.name

/-- The contributors of a request: the base, and the mixins in order. -/
structure Mix where
  base : SymbolRef
  mixins : List SymbolRef
  deriving DecidableEq, Repr

def Mix.participants (x : Mix) : List SymbolRef := x.base :: x.mixins

/-- Resolves the contributors; none may come twice. -/
def resolveMix (p : Provider σ) (q : Request) : Planner σ Mix := do
  let base ← Planner.ask (p.resolve q.base)
  let mixins ← q.mixins.mapM fun t => Planner.ask (p.resolve t)
  match repeated? [] (base :: mixins) with
  | some path => Act.refuse (.repeated path)
  | none => return { base, mixins }

/-- The header, and the capability sets that are listed next to the base. -/
def planHeader (p : Provider σ) (name : String) (x : Mix) : Planner σ (Header × List SymbolRef) := do
  let served ← x.participants.mapM fun r => Planner.ask (p.capabilitySets r)
  let sets := union served.flatten
  let ownPaths := x.base.path :: (served.headD []).map SymbolRef.path
  let extra ← minimal p (sets.filter fun r => !ownPaths.contains r.path)
  let extraPaths := extra.map SymbolRef.path
  let setPaths := sets.map SymbolRef.path
  let header : Header :=
    { name
      base := x.base.path
      mixins := x.mixins.map SymbolRef.path
      capabilitySets := setPaths
      baseCapabilitySets := setPaths.filter fun c => !extraPaths.contains c }
  return (header, extra)

/-- Reads combinators and cutpoints. -/
def planContext (p : Provider σ) (d : Defaults) (strict : Bool) (q : Request) (x : Mix) (members : MemberMap) :
    Planner σ Context := do
  let specs ← Planner.ask (CombinatorSpec.parseAll p x.participants q.combinators)
  let specs ← knownSpecs strict members.keys specs
  let beforeNames ← Act.ofExcept ((q.before.expand members.plain).mapError .refusal)
  let before ← Cutpoints.usable strict .before members.keys beforeNames
  let afterNames ← Act.ofExcept ((q.after.expand members.plain).mapError .refusal)
  let after ← Cutpoints.usable strict .after members.keys afterNames
  let specs := withDefaults d members.keys .after after (withDefaults d members.keys .before before specs)
  return { composite := q.name, base := x.base, members, specs, before, after }

/-- A plan before its symbols are collected. -/
structure Outline where
  mix : Mix
  header : Header
  /-- The capability sets that are listed next to the base. -/
  extra : List SymbolRef
  fields : List FieldDef
  context : Context
  methods : List MethodDef

/-- Plans all of a composite but its symbols. -/
def outline (p : Provider σ) (d : Defaults) (strict : Bool) (q : Request) : Planner σ Outline := do
  if !Text.isFreeName q.name then Act.refuse (.badClassName q.name)
  let mix ← resolveMix p q
  let (header, extra) ← planHeader p q.name mix
  let fields ← Planner.ask (Fields.synthesize p mix.base mix.mixins header.capabilitySets)
  let members ← memberMap p .base [] mix.participants
  let context ← planContext p d strict q mix members
  let methods ← planMethods strict context members
  return { mix, header, extra, fields, context, methods }

/-- All claims of a plan: its contributors, its combination functions, and what generated code relies on. -/
def claimsOf (p : Provider σ) (d : Defaults) (o : Outline) (provider : σ) : Except Failure Claims := do
  let own : Claims := (o.mix.participants ++ o.extra).map fun r => (r, p.binding r provider)
  let joined ← combinatorClaims o.context.specs o.methods
  return own ++ joined ++ supportClaims d o.methods

/-- The blueprint of a plan whose symbols are claimed. -/
def ofClaims (o : Outline) (claims : Claims) : Blueprint where
  header := o.header
  fields := o.fields
  methods := o.methods
  symbols := symbolsOf claims
  aliases := Alias.assign ((symbolsOf claims).map Prod.snd) (reservedNames o.header.name o.fields o.methods)
  bindings := bindingsOf claims

/-- Builds the blueprint of a request. -/
def build (p : Provider σ) (d : Defaults) (strict : Bool) (q : Request) : Planner σ Blueprint := do
  let o ← outline p d strict q
  let claims ← Act.ofExcept (claimsOf p d o (← get).provider)
  Planner.note (.built q.name o.methods.length)
  return ofClaims o claims

end Blueprint

end Amalgam
