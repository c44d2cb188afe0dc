import Amalgam.Blueprint.Alias
import Amalgam.Source.Layout
import Amalgam.Source
import Amalgam.Text.Quoted

/-!
From blueprint to code.

Names that cannot stand in code are found on the way, in the order in which the code is put together: bases, fields,
methods, the name of the class, and then the imports.
-/

namespace Amalgam.Source

/-- An outcome of putting code together. -/
abbrev Compiled (α : Type) := Except Failure α

/-- The name of a symbol in the code. -/
def aliasOf (b : Blueprint) (path : String) : Compiled String :=
  match b.aliases.get? path with
  | some name => .ok name
  | none => .error (.fault .key)

/-- A name that becomes a node of the tree of its own; reserved words pass here. -/
def nodeName (name : String) : Compiled String :=
  if Text.isIdentifier name then .ok name else .error (.fault .badName)

/-- Refuses a statement that cannot be read. -/
def readable (ok : Bool) : Compiled Unit := if ok then .ok () else .error (.fault .badStatement)

/-- Names joined by dots, blanks around them allowed. -/
def isDottedName (text : String) : Bool :=
  (Text.splitOnChar '.' text).all fun part =>
    Text.isFreeName (String.ofList (Text.trimList (fun c => c == ' ' || c == '\t') part.toList))

/-- What a field may be called: a name, or an attribute of one. -/
def isFieldName (text : String) : Bool := (Text.splitOnChar '.' text).all Text.isFreeName

/-- The line of a field. -/
def fieldLine (b : Blueprint) (f : FieldDef) : Compiled FieldLine := do
  let borrowed : Compiled FieldLine := do
    let owner ← aliasOf b f.origin
    readable (isFieldName f.name && Text.isFreeName owner)
    return { name := f.name, value := some (.copied owner), visibility := f.visibility }
  if f.isDescriptor then borrowed
  else
    match f.default with
    | none => do
      readable (isFieldName f.name)
      return { name := f.name, hint := some (f.hint.map Text.Quoted.quote |>.getD "None"), visibility := f.visibility }
    | some text => do
      let line ← if isLiteral text then do
          readable (isFieldName f.name && (Layout.fieldText? text).isSome)
          pure { name := f.name, value := some (.literal text), visibility := f.visibility : FieldLine }
        else borrowed
      return { line with hint := f.hint.map Text.Quoted.quote }

/-- The receiver of a method. -/
def receiverOf : MemberKind → Option String
  | .ofInstance => some "self"
  | .ofClass => some "cls"
  | .static => none

/-- The function behind a contributor's member. -/
def implementation (owner : String) (kind : MemberKind) (member : String) : Target where
  head := owner
  attributes := if kind = .ofClass then [member, "__func__"] else [member]

/-- Whether a target can be written. -/
def Target.isReadable (t : Target) : Bool := Text.isFreeName t.head && t.attributes.all Text.isFreeName

/-- The default of a parameter. -/
def defaultOf (b : Blueprint) (function : Target) (p : Param) : Compiled (Option Default) :=
  match p.default with
  | none => .ok none
  | some text =>
    if isLiteral text then do
      readable (Layout.paramText? text).isSome
      return some (.literal text)
    else do
      let reader ← aliasOf b SymbolRef.parameterDefault.path
      readable (Text.isFreeName reader && function.isReadable)
      return some (.readBack reader function p.name)

/-- The default of a parameter that may have one; those that take any number of arguments have none. -/
def defaultFor (b : Blueprint) (function : Target) (p : Param) : Compiled (Option Default) :=
  match p.kind with
  | .varPositional => .ok none
  | .varKeyword => .ok none
  | _ => defaultOf b function p

/-- A parameter. -/
def formalOf (b : Blueprint) (function : Target) (p : Param) : Compiled Formal := do
  let default ← defaultFor b function p
  let name ← nodeName p.name
  return { name, kind := p.kind, hint := p.hint.map Text.Quoted.quote, default }

/-- Parameters in the order of their kinds; of several that take any number of arguments the last one stays. -/
def sortFormals (fs : List Formal) : List Formal :=
  let of := fun kind => fs.filter fun f => f.kind == kind
  of .positionalOnly ++ of .positionalOrKeyword ++ (of .varPositional).getLast?.toList ++ of .keywordOnly ++
    (of .varKeyword).getLast?.toList

/-- Puts the receiver in front, as positional as the first of the others. -/
def withReceiver (receiver : Option String) (fs : List Formal) : List Formal :=
  match receiver with
  | none => fs
  | some name =>
    { name, kind := if fs.any fun f => f.kind == .positionalOnly then .positionalOnly else .positionalOrKeyword } :: fs

/-- Whether a parameter takes one positional argument. -/
def Formal.isPositional (f : Formal) : Bool := f.kind == .positionalOnly || f.kind == .positionalOrKeyword

/-- Whether no positional parameter without a default follows one with a default. -/
def defaultsLast : (seen : Bool) → List Formal → Bool
  | _, [] => true
  | seen, f :: rest =>
    if !f.isPositional then defaultsLast seen rest
    else if f.default.isSome then defaultsLast true rest
    else !seen && defaultsLast seen rest

/-- The parameter list of a method. -/
def formalsOf (b : Blueprint) (m : MethodDef) (receiver : Option String) : Compiled (List Formal) := do
  let reference ← aliasOf b m.reference
  let formals ← m.signature.params.mapM (formalOf b (implementation reference m.signature.kind m.name))
  let formals := withReceiver receiver (sortFormals formals)
  if defaultsLast false formals then .ok formals else .error (.fault .badName)

/-- The argument that hands a parameter on. -/
def forward (p : Param) : Arg :=
  match p.kind with
  | .varPositional => .spread p.name
  | .keywordOnly => .named p.name p.name
  | .varKeyword => .spreadNamed p.name
  | _ => .name p.name

/-- The arguments that hand all parameters on. -/
def forwardAll (s : Signature) : List Arg := s.params.map forward

/-- The call of one contributor. -/
def contributorCall (b : Blueprint) (s : Signature) (receiver : Option String) (target : MemberCall) : Compiled Call := do
  let owner ← aliasOf b target.contributor
  let args := receiver.toList.map Arg.name ++ forwardAll s
  return { target := implementation owner s.kind target.member, args, isAwaited := s.isAsync }

/-- What a method does between its hooks. -/
def workOf (b : Blueprint) (m : MethodDef) (receiver : Option String) : Compiled Work :=
  match m.core with
  | .call target => do return .call (← contributorCall b m.signature receiver target)
  | .combine f targets => do
    let calls ← targets.mapM (contributorCall b m.signature receiver)
    return .combine (← aliasOf b f) calls

/-- The call of a hook. -/
def hookCall (owner : String) (s : Signature) (call : Advice.Call) (args : List Arg) : Call where
  target := { head := owner, attributes := [call.hook] }
  args := args
  isAwaited := call.isAsync && s.isAsync

/-- Where an argument may stand in a call: early, in the middle or late. -/
def Arg.isEarly : Arg → Bool
  | name _ => true
  | text _ => true
  | spread _ => true
  | _ => false

def Arg.isMiddle : Arg → Bool
  | named _ _ => true
  | spread _ => true
  | _ => false

def Arg.isLate : Arg → Bool
  | named _ _ => true
  | spreadNamed _ => true
  | _ => false

/-- Whether arguments stand in an order in which they can be read. -/
def isOrdered (args : List Arg) : Bool :=
  ((args.dropWhile Arg.isEarly).dropWhile Arg.isMiddle).all Arg.isLate

/-- A name used as a value: the three constants may stand there as well. -/
def isValueName (name : String) : Bool := Text.isFreeName name || ["None", "True", "False"].contains name

def Arg.isReadable : Arg → Bool
  | name n => isValueName n
  | text _ => true
  | spread n => isValueName n
  | named k v => Text.isFreeName k && isValueName v
  | spreadNamed n => isValueName n

def Call.isReadable (c : Call) : Bool := c.target.isReadable && c.args.all Arg.isReadable && isOrdered c.args

def Work.isReadable : Work → Bool
  | call c => c.isReadable
  | combine f cs => Text.isFreeName f && cs.all Call.isReadable

/-- Whether a statement can be read as it is written. -/
def Stmt.isReadable : Stmt → Bool
  | observe c => c.isReadable
  | decide c => c.isReadable
  | leaveOn cls => Text.isFreeName cls
  | keep w => w.isReadable
  | replaceOn cls => Text.isFreeName cls
  | finish => true
  | give w => w.isReadable

/-- The statements of one hook before the work. -/
def beforeStmts (b : Blueprint) (owner : String) (m : MethodDef) (call : Advice.Call) : Compiled (List Stmt) :=
  let args := forwardAll m.signature
  match call.scope with
  | .catchAll => .ok [.observe (hookCall owner m.signature call (.text m.memberId :: args))]
  | .member => do
    let cls ← aliasOf b SymbolRef.shortCircuit.path
    return [.decide (hookCall owner m.signature call args), .leaveOn cls]

/-- The statements of one hook after the work. -/
def afterStmts (b : Blueprint) (owner : String) (m : MethodDef) (call : Advice.Call) : Compiled (List Stmt) :=
  let args := Arg.name Alias.returnSlot :: forwardAll m.signature
  match call.scope with
  | .catchAll => .ok [.observe (hookCall owner m.signature call (.text m.memberId :: args))]
  | .member => do
    let cls ← aliasOf b SymbolRef.replace.path
    return [.decide (hookCall owner m.signature call args), .replaceOn cls]

/-- The body of a method: hooks before, the work, hooks after. -/
def bodyOf (b : Blueprint) (m : MethodDef) (receiver : Option String) : Compiled (List Stmt) := do
  let work ← workOf b m receiver
  let body ← if m.isAdvised then do
      let owner := receiver.getD b.name
      let before ← m.before.mapM (beforeStmts b owner m)
      let after ← m.after.mapM (afterStmts b owner m)
      pure (before.flatten ++ [.keep work] ++ after.flatten ++ [.finish])
    else pure [.give work]
  readable (body.all Stmt.isReadable)
  return body

/-- The code of a method. -/
def methodOf (b : Blueprint) (m : MethodDef) : Compiled Method := do
  let name ← nodeName m.name
  let receiver := receiverOf m.signature.kind
  let formals ← formalsOf b m receiver
  let body ← bodyOf b m receiver
  return { name, kind := m.signature.kind, isAsync := m.signature.isAsync, receiver, formals, body }

/-- The code of the class. -/
def classOf (b : Blueprint) : Compiled Class := do
  let bases ← (b.header.base :: b.header.extraBases).mapM fun path => do nodeName (← aliasOf b path)
  let fields ← b.fields.mapM (fieldLine b)
  let methods ← b.methods.mapM (methodOf b)
  let name ← nodeName b.name
  return { name, bases, fields, methods }

/-- Whether a module can be imported from by this text: dots in front, then names joined by dots. -/
def isHome (home : String) : Bool :=
  let names := home.toList.dropWhile fun c => c == '.' || c == ' ' || c == '\t'
  let lead := home.toList.takeWhile fun c => c == '.' || c == ' ' || c == '\t'
  if names.isEmpty then lead.contains '.' else isDottedName (String.ofList names)

/-- The import of a symbol under a name. -/
def importLine (r : SymbolRef) (boundAs : String) : Import where
  home := r.home
  head := String.ofList (r.qualname.toList.takeWhile (· != '.'))
  rest := String.ofList ((r.qualname.toList.dropWhile (· != '.')).drop 1)
  boundAs := boundAs

/-- Whether an import can be read as it is written. -/
def Import.isReadable (i : Import) : Bool :=
  isHome i.home && isDottedName i.head && Text.isFreeName i.boundAs && (i.rest.isEmpty || isDottedName i.rest)

/-- The import of a symbol; local symbols and variants have none. -/
def importOf (b : Blueprint) (path : String) (r : SymbolRef) : Compiled Import := do
  if !r.importable then .error (.notImportable path)
  let line := importLine r (← aliasOf b path)
  readable line.isReadable
  return line

/-- The code of a blueprint, as an artifact or for the running process. -/
def compile (isArtifact : Bool) (b : Blueprint) : Compiled Code := do
  let cls ← classOf b
  let imports ← if isArtifact then b.symbols.mapM fun e => importOf b e.1 e.2 else pure []
  return { isArtifact, imports, cls }

end Amalgam.Source
