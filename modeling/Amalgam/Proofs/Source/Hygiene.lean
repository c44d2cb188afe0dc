import Amalgam.Proofs.Source.Body
import Amalgam.Proofs.World.Roster
import Amalgam.World.Fresh

/-!
# Names in generated code

Generated code mixes names of its contributors with names of its own. Symbols are named so that no parameter has the name
of one. But parameters are taken as they come: `isHygienic_iff` says which of them take the place of the receiver, or of
another name that the code relies on, and when the marks of static and class methods still are what they seem.

Code is read inside a class, where private names change, so what is said of names is said of them as they are there.
With an empty owner it is said of the text.
-/

namespace Amalgam

namespace Text

/-- Whether two names become one inside a class: one is private, and the other is what it stands for there. -/
def Merges (owner name name' : String) : Prop := name ≠ name' ∧ privateName owner name = privateName owner name'

instance (owner name name' : String) : Decidable (Merges owner name name') := inferInstanceAs (Decidable (_ ∧ _))

theorem not_merges_empty (name name' : String) : ¬Merges "" name name' := by
  rintro ⟨hne, heq⟩
  rw [Source.privateName_empty, Source.privateName_empty] at heq
  exact hne heq

end Text

namespace Source

/-! ## What code relies on -/

/-- The names through which the work of a method is done. -/
def Work.identifiers : Work → List String
  | call c => [c.target.head]
  | combine f cs => f :: cs.map fun c => c.target.head

/-- What a hook is called through, unless that is the receiver. -/
def Call.owners (receiver : Option String) (c : Call) : List String :=
  if receiver = some c.target.head then [] else [c.target.head]

/-- The names that a statement relies on next to the receiver and the arguments handed on. -/
def Stmt.identifiers (receiver : Option String) : Stmt → List String
  | observe c => c.owners receiver
  | decide c => Alias.decisionSlot :: c.owners receiver
  | leaveOn cls => ["isinstance", Alias.decisionSlot, cls]
  | keep w => Alias.returnSlot :: w.identifiers
  | replaceOn cls => ["isinstance", Alias.decisionSlot, cls, Alias.returnSlot]
  | finish => [Alias.returnSlot]
  | give w => w.identifiers

def Method.identifiers (c : Method) : List String := c.body.flatMap (Stmt.identifiers c.receiver)

/-- The parameters of a method have names of their own. -/
def Method.HasDistinctFormals (c : Method) : Prop := (c.formals.map Formal.name).Nodup

/-- No parameter has a name that the body relies on. -/
def Method.LeavesNames (c : Method) : Prop := ∀ f ∈ c.formals, f.name ∉ c.identifiers

/-- One line of the body of a class. -/
structure Line where
  name : String
  /-- Whether something is stored under the name. -/
  binds : Bool
  /-- Whether a value or a mark is evaluated before. -/
  evaluates : Bool
  deriving DecidableEq, Repr

/-- A line as it is read inside a class. -/
def Line.within (owner : String) (l : Line) : Line := { l with name := Text.privateName owner l.name }

def FieldLine.line (f : FieldLine) : Line := ⟨f.name, f.value.isSome, f.value.isSome⟩

def Method.line (c : Method) : Line := ⟨c.name, true, c.kind != .ofInstance⟩

def Class.lines (k : Class) : List Line := k.fields.map FieldLine.line ++ k.methods.map Method.line

/-- The marks of static and class methods. -/
def marks : List String := ["staticmethod", "classmethod"]

/-- Whether a line leaves the marks to a later one. -/
def Line.Leaves (l later : Line) : Prop := l.binds = true → later.evaluates = true → l.name ∉ marks

instance (l later : Line) : Decidable (l.Leaves later) := inferInstanceAs (Decidable (_ → _))

end Source

/-! ## What a plan takes care of -/

namespace MethodDef

/-- No parameter is named as the receiver, and no two become one. -/
def HasDistinctParams (owner : String) (m : MethodDef) : Prop :=
  (∀ r ∈ Source.receiverOf m.signature.kind, r ∉ m.signature.params.map Param.name) ∧
    ∀ p ∈ m.signature.params, ∀ p' ∈ m.signature.params, ¬Text.Merges owner p.name p'.name

/-- No parameter has a name that the body spells out, and none becomes one that it relies on. -/
def LeavesNames (owner : String) (b : Blueprint) (m : MethodDef) : Prop :=
  (∀ p ∈ m.signature.params, p.name ∉ m.spelledNames b) ∧
    ∀ p ∈ m.signature.params, ∀ name ∈ m.spelledNames b ++ m.symbolNames b, ¬Text.Merges owner p.name name

instance (owner : String) (m : MethodDef) : Decidable (m.HasDistinctParams owner) := inferInstanceAs (Decidable (_ ∧ _))

instance (owner : String) (b : Blueprint) (m : MethodDef) : Decidable (m.LeavesNames owner b) :=
  inferInstanceAs (Decidable (_ ∧ _))

/-- As text, parameters are apart if none is named as the receiver. -/
theorem hasDistinctParams_empty (m : MethodDef) : m.HasDistinctParams "" ↔
    ∀ r ∈ Source.receiverOf m.signature.kind, r ∉ m.signature.params.map Param.name :=
  and_iff_left fun _ _ _ _ => Text.not_merges_empty _ _

/-- As text, they leave all names alone if none has a name that the body spells out. -/
theorem leavesNames_empty (b : Blueprint) (m : MethodDef) :
    m.LeavesNames "" b ↔ ∀ p ∈ m.signature.params, p.name ∉ m.spelledNames b :=
  and_iff_left fun _ _ _ _ => Text.not_merges_empty _ _

def line (m : MethodDef) : Source.Line := ⟨m.name, true, m.signature.kind != .ofInstance⟩

end MethodDef

/-- A field is stored if it has a value, or is copied as it is. -/
def FieldDef.line (f : FieldDef) : Source.Line := ⟨f.name, f.isDescriptor || f.default.isSome, f.isDescriptor || f.default.isSome⟩

def Blueprint.lines (b : Blueprint) : List Source.Line := b.fields.map FieldDef.line ++ b.methods.map MethodDef.line

/-! ## Names of a body -/

namespace Source

section Body

variable {b : Blueprint} {m : MethodDef} {receiver : Option String} {ident : String}

theorem mem_workIdentifiers {work : Work} (h : workOf b m receiver = .ok work) :
    ident ∈ work.identifiers ↔ ∃ path ∈ m.calledPaths, b.aliases.get? path = some ident := by
  have hhead : ∀ {target : MemberCall} {c : Call}, contributorCall b m.signature receiver target = .ok c →
      b.aliases.get? target.contributor = some c.target.head := by
    intro target c hc
    obtain ⟨owner, howner, hc⟩ := Outcome.bind_eq_ok.1 hc
    cases hc
    exact aliasOf_eq_ok.1 howner
  unfold workOf at h
  unfold MethodDef.calledPaths MethodDef.contributors
  cases hcore : m.core with
  | call target =>
    rw [hcore] at h
    obtain ⟨c, hc, h⟩ := Outcome.bind_eq_ok.1 h
    cases h
    simp [Work.identifiers, Core.targets, hhead hc, eq_comm]
  | combine f targets =>
    rw [hcore] at h
    obtain ⟨calls, hcalls, h⟩ := Outcome.bind_eq_ok.1 h
    obtain ⟨name, hname, h⟩ := Outcome.bind_eq_ok.1 h
    cases h
    have htargets : (∃ c ∈ calls, c.target.head = ident) ↔
        ∃ target ∈ targets, b.aliases.get? target.contributor = some ident := by
      refine Outcome.exists_mem_iff_of_mapM hcalls fun target _ c hc => ?_
      rw [hhead hc, Option.some.injEq]
    simp only [Work.identifiers, Core.targets, List.mem_cons, List.mem_map, htargets, List.mem_append, or_and_right,
      exists_or, exists_exists_and_eq_and, List.not_mem_nil, or_false, exists_eq_left, aliasOf_eq_ok.1 hname,
      Option.some.injEq]
    rw [or_comm, eq_comm]

/-- Hooks are called through the composite where there is no receiver. -/
theorem mem_owners_hookCall {call : Advice.Call} {args : List Arg} :
    ident ∈ (hookCall (receiver.getD b.name) m.signature call args).owners receiver ↔ receiver = none ∧ ident = b.name := by
  cases receiver with
  | none => simp [hookCall, Call.owners]
  | some r => simp [hookCall, Call.owners]

/-- What the statements of one hook rely on. -/
def ReliesOn (b : Blueprint) (receiver : Option String) (k : Verdict) (call : Advice.Call) (ident : String) : Prop :=
  receiver = none ∧ ident = b.name ∨ call.scope = .member ∧
    (ident = Alias.decisionSlot ∨ ident = "isinstance" ∨ b.aliases.get? k.ref.path = some ident)

theorem mem_beforeStmts {call : Advice.Call} {stmts : List Stmt}
    (h : beforeStmts b (receiver.getD b.name) m call = .ok stmts) :
    ident ∈ stmts.flatMap (Stmt.identifiers receiver) ↔ ReliesOn b receiver .shortCircuit call ident := by
  unfold beforeStmts at h
  unfold ReliesOn
  cases hscope : call.scope with
  | catchAll =>
    rw [hscope] at h
    cases h
    simp [Stmt.identifiers, mem_owners_hookCall]
  | member =>
    rw [hscope] at h
    obtain ⟨cls, hcls, h⟩ := Outcome.bind_eq_ok.1 h
    cases h
    have hcls : b.aliases.get? Verdict.shortCircuit.ref.path = some cls := aliasOf_eq_ok.1 hcls
    simp only [List.flatMap_cons, List.flatMap_nil, List.append_nil, Stmt.identifiers, List.mem_append, List.mem_cons,
      mem_owners_hookCall, List.not_mem_nil, or_false, hcls, Option.some.injEq, eq_comm (a := cls), true_and]
    tauto

theorem mem_afterStmts {call : Advice.Call} {stmts : List Stmt}
    (h : afterStmts b (receiver.getD b.name) m call = .ok stmts) :
    ident ∈ Alias.returnSlot :: stmts.flatMap (Stmt.identifiers receiver) ↔
      ident = Alias.returnSlot ∨ ReliesOn b receiver .replace call ident := by
  unfold afterStmts at h
  unfold ReliesOn
  cases hscope : call.scope with
  | catchAll =>
    rw [hscope] at h
    cases h
    simp [Stmt.identifiers, mem_owners_hookCall]
  | member =>
    rw [hscope] at h
    obtain ⟨cls, hcls, h⟩ := Outcome.bind_eq_ok.1 h
    cases h
    have hcls : b.aliases.get? Verdict.replace.ref.path = some cls := aliasOf_eq_ok.1 hcls
    simp only [List.flatMap_cons, List.flatMap_nil, List.append_nil, Stmt.identifiers, List.mem_append, List.mem_cons,
      mem_owners_hookCall, List.not_mem_nil, or_false, hcls, Option.some.injEq, eq_comm (a := cls), true_and]
    tauto

theorem exists_reliesOn {k : Verdict} {calls : List Advice.Call} :
    (∃ call ∈ calls, ReliesOn b receiver k call ident) ↔ calls ≠ [] ∧ receiver = none ∧ ident = b.name ∨
      calls.any (·.scope == .member) = true ∧
        (ident = Alias.decisionSlot ∨ ident = "isinstance" ∨ b.aliases.get? k.ref.path = some ident) := by
  rw [List.any_eq_true]
  constructor
  · rintro ⟨call, hcall, hname | ⟨hscope, hident⟩⟩
    · exact Or.inl ⟨List.ne_nil_of_mem hcall, hname⟩
    · exact Or.inr ⟨⟨call, hcall, by rw [hscope]; rfl⟩, hident⟩
  · rintro (⟨hcalls, hname⟩ | ⟨⟨call, hcall, hscope⟩, hident⟩)
    · obtain ⟨call, hcall⟩ := List.exists_mem_of_ne_nil _ hcalls
      exact ⟨call, hcall, Or.inl hname⟩
    · exact ⟨call, hcall, Or.inr ⟨eq_of_beq hscope, hident⟩⟩

theorem mem_spelledNames : ident ∈ m.spelledNames b ↔ m.isAdvised = true ∧ ident = Alias.returnSlot ∨
    m.decides = true ∧ (ident = Alias.decisionSlot ∨ ident = "isinstance") ∨
    m.callsThroughName = true ∧ ident = b.name := by
  unfold MethodDef.spelledNames
  rw [List.mem_append, List.mem_append, or_assoc]
  refine or_congr ?_ (or_congr ?_ ?_)
  · split <;> simp [*]
  · split <;> simp [*]
  · split <;> simp [*]

theorem mem_symbolNames : ident ∈ m.symbolNames b ↔ (∃ path ∈ m.calledPaths, b.aliases.get? path = some ident) ∨
    m.before.any (·.scope == .member) = true ∧ b.aliases.get? Verdict.shortCircuit.ref.path = some ident ∨
    m.after.any (·.scope == .member) = true ∧ b.aliases.get? Verdict.replace.ref.path = some ident := by
  unfold MethodDef.symbolNames MethodDef.verdictPaths
  rw [List.mem_filterMap]
  simp only [List.mem_append, or_and_right, exists_or]
  refine or_congr_right (or_congr ?_ ?_)
  · split <;> simp [*]
  · split <;> simp [*]

/-- A body relies on what it spells out and on its symbols, and on nothing else. -/
theorem mem_identifiers {body : List Stmt} (h : bodyOf b m (receiverOf m.signature.kind) = .ok body) :
    ident ∈ body.flatMap (Stmt.identifiers (receiverOf m.signature.kind)) ↔
      ident ∈ m.spelledNames b ++ m.symbolNames b := by
  rw [List.mem_append, mem_spelledNames, mem_symbolNames]
  obtain ⟨work, hwork, ⟨hplain, rfl⟩ | ⟨hadvised, before, after, hb, ha, rfl⟩⟩ := bodyOf_eq_ok h
  · have hnone : m.before = [] ∧ m.after = [] := by simpa [MethodDef.isAdvised] using hplain
    simp [Stmt.identifiers, mem_workIdentifiers hwork, hplain, MethodDef.decides, MethodDef.callsThroughName, hnone.1, hnone.2]
  have hparts : ∀ parts : List (List Stmt), ident ∈ parts.flatten.flatMap (Stmt.identifiers (receiverOf m.signature.kind)) ↔
      ∃ stmts ∈ parts, ident ∈ stmts.flatMap (Stmt.identifiers (receiverOf m.signature.kind)) := by
    intro parts
    simp only [List.mem_flatMap, List.mem_flatten]
    constructor
    · rintro ⟨s, ⟨stmts, hstmts, hs⟩, h⟩
      exact ⟨stmts, hstmts, s, hs, h⟩
    · rintro ⟨stmts, hstmts, s, hs, h⟩
      exact ⟨s, ⟨stmts, hstmts, hs⟩, h⟩
  by_cases hslot : ident = Alias.returnSlot
  · refine iff_of_true ?_ (Or.inl (Or.inl ⟨hadvised, hslot⟩))
    simp [Stmt.identifiers, hslot]
  have hbefore : (∃ stmts ∈ before, ident ∈ stmts.flatMap (Stmt.identifiers (receiverOf m.signature.kind))) ↔
      ∃ call ∈ m.before, ReliesOn b (receiverOf m.signature.kind) .shortCircuit call ident :=
    Outcome.exists_mem_iff_of_mapM hb fun _ _ _ hstmts => mem_beforeStmts hstmts
  have hafter : (∃ stmts ∈ after, ident ∈ stmts.flatMap (Stmt.identifiers (receiverOf m.signature.kind))) ↔
      ∃ call ∈ m.after, ReliesOn b (receiverOf m.signature.kind) .replace call ident := by
    refine Outcome.exists_mem_iff_of_mapM ha fun _ _ _ hstmts => ?_
    have := @mem_afterStmts _ _ _ ident _ _ hstmts
    rwa [List.mem_cons, or_iff_right hslot, or_iff_right hslot] at this
  have hthrough : m.callsThroughName = true ↔ (m.before ≠ [] ∨ m.after ≠ []) ∧ receiverOf m.signature.kind = none := by
    have hhooks : m.before ≠ [] ∨ m.after ≠ [] := by
      simpa [MethodDef.isAdvised] using hadvised
    rw [MethodDef.callsThroughName, hadvised, Bool.true_and, Option.isNone_iff_eq_none, and_iff_right hhooks]
  rw [hthrough, MethodDef.decides, Bool.or_eq_true]
  simp only [List.flatMap_append, List.mem_append, hparts, hbefore, hafter, exists_reliesOn, List.flatMap_cons,
    List.flatMap_nil, List.append_nil, Stmt.identifiers, List.mem_cons, mem_workIdentifiers hwork, hslot,
    List.not_mem_nil]
  grind

end Body

/-- Read inside a class, a statement relies on the same names as they are there; the receiver is never private. -/
theorem Stmt.identifiers_within {receiver : Option String} (hplain : ∀ r ∈ receiver, ¬['_', '_'] <:+: r.toList)
    (owner : String) (s : Stmt) :
    (s.within owner).identifiers receiver = (s.identifiers receiver).map (Text.privateName owner) := by
  have howners : ∀ c : Call, (c.within owner).owners receiver = (c.owners receiver).map (Text.privateName owner) := by
    intro c
    unfold Call.owners
    have hhead : receiver = some (c.within owner).target.head ↔ receiver = some c.target.head := by
      cases receiver with
      | none => simp
      | some r =>
        rw [Option.some.injEq, Option.some.injEq, eq_comm, eq_comm (a := r)]
        exact Text.privateName_eq_plain_iff (hplain r rfl)
    by_cases h : receiver = some c.target.head
    · rw [if_pos h, if_pos (hhead.2 h)]
      rfl
    · rw [if_neg h, if_neg fun hwithin => h (hhead.1 hwithin)]
      rfl
  have hwork : ∀ w : Work, (w.within owner).identifiers = w.identifiers.map (Text.privateName owner) := by
    intro w
    cases w with
    | call c => rfl
    | combine f cs =>
      show _ :: (cs.map (Call.within owner)).map _ = _ :: (cs.map _).map _
      rw [List.map_map, List.map_map]
      rfl
  have hfixed : ∀ name ∈ ["isinstance", Alias.decisionSlot, Alias.returnSlot], Text.privateName owner name = name := by
    intro name hname
    refine (Text.privateName_eq_plain_iff ?_).2 rfl
    revert name
    decide +kernel
  have htest := hfixed "isinstance" (by decide)
  have hdecision := hfixed Alias.decisionSlot (by decide)
  have hreturn := hfixed Alias.returnSlot (by decide)
  cases s with
  | observe c => exact howners c
  | decide c => simp [within, identifiers, howners, hdecision]
  | leaveOn cls => simp [within, identifiers, htest, hdecision]
  | keep w => simp [within, identifiers, hwork, hreturn]
  | replaceOn cls => simp [within, identifiers, htest, hdecision, hreturn]
  | finish => simp [within, identifiers, hreturn]
  | give w => exact hwork w

section Emitted

variable {b : Blueprint} {m : MethodDef} {c : Method} (hc : methodOf b m = .ok c)

include hc

/-- The identifiers of a method are those of its plan, as its class reads them. -/
theorem mem_identifiers_within (owner : String) {ident : String} :
    ident ∈ (c.within owner).identifiers ↔
      ∃ name ∈ m.spelledNames b ++ m.symbolNames b, Text.privateName owner name = ident := by
  obtain ⟨-, -, hreceiver, -, hbody⟩ := methodOf_eq_ok hc
  have hstmts : (c.body.map (Stmt.within owner)).flatMap (Stmt.identifiers c.receiver) =
      (c.body.flatMap (Stmt.identifiers c.receiver)).map (Text.privateName owner) := by
    rw [List.flatMap_map, List.map_flatMap]
    congr 1
    funext s
    exact s.identifiers_within (hreceiver ▸ receiver_plain) owner
  show ident ∈ (c.body.map (Stmt.within owner)).flatMap (Stmt.identifiers c.receiver) ↔ _
  rw [hstmts, List.mem_map, hreceiver]
  simp only [mem_identifiers hbody]

/-- The parameters of a method are those of its signature behind the receiver. -/
theorem names_within (legal : ParamShape.IsLegal (m.signature.params.map Param.shape)) (owner : String) :
    (c.within owner).formals.map Formal.name = (receiverOf m.signature.kind).toList ++
      m.signature.params.map fun p => Text.privateName owner p.name := by
  obtain ⟨-, -, -, hformals, -⟩ := methodOf_eq_ok hc
  obtain ⟨reference, fs, -, -, hshapes, heq⟩ := (formalsOf_eq_ok legal).1 hformals
  have hnames := names_withReceiver hshapes (receiverOf m.signature.kind)
  have hwithin : (c.within owner).formals.map Formal.name = (c.formals.map Formal.name).map (Text.privateName owner) := by
    show (c.formals.map (Formal.within owner)).map Formal.name = _
    rw [List.map_map, List.map_map]
    rfl
  rw [hwithin, heq, hnames, List.map_append, List.map_map]
  congr 1
  cases hr : receiverOf m.signature.kind with
  | none => rfl
  | some r => exact congrArg ([·]) ((Text.privateName_eq_plain_iff (receiver_plain r hr)).2 rfl)

theorem hasDistinctFormals_iff (legal : ParamShape.IsLegal (m.signature.params.map Param.shape)) (owner : String) :
    (c.within owner).HasDistinctFormals ↔ m.HasDistinctParams owner := by
  have hreceiver : ∀ r ∈ receiverOf m.signature.kind,
      r ∈ (m.signature.params.map fun p => Text.privateName owner p.name) ↔ r ∈ m.signature.params.map Param.name := by
    intro r hr
    simp only [List.mem_map, Text.privateName_eq_plain_iff (receiver_plain r hr)]
  have hparams : (m.signature.params.map fun p => Text.privateName owner p.name).Nodup ↔
      ∀ p ∈ m.signature.params, ∀ p' ∈ m.signature.params, ¬Text.Merges owner p.name p'.name := by
    have hnames : (m.signature.params.map Param.name).Nodup := by
      have := legal.distinct
      rwa [List.map_map] at this
    have hmap : (m.signature.params.map fun p => Text.privateName owner p.name) =
        (m.signature.params.map Param.name).map (Text.privateName owner) := by
      rw [List.map_map]
      rfl
    rw [hmap, List.nodup_map_iff_inj_on hnames]
    simp only [List.forall_mem_map, Text.Merges, ne_eq, not_and, not_imp_not]
  unfold Method.HasDistinctFormals MethodDef.HasDistinctParams
  rw [names_within hc legal owner, ← hparams]
  cases hr : receiverOf m.signature.kind with
  | none => simp
  | some r =>
    rw [hr] at hreceiver
    rw [Option.toList_some, List.singleton_append, List.nodup_cons, hreceiver r rfl]
    simp

variable (built : m.IsBuilt b)

include built

/-- A receiver is none of the names that its body relies on. -/
theorem receiver_not_mem_identifiers (owner : String) :
    ∀ r ∈ receiverOf m.signature.kind, r ∉ (c.within owner).identifiers := by
  intro r hr hmem
  obtain ⟨name, hname, heq⟩ := (mem_identifiers_within hc owner).1 hmem
  rw [Text.privateName_eq_plain_iff (receiver_plain r hr)] at heq
  subst heq
  have hfixed : name = "self" ∨ name = "cls" := by
    cases hkind : m.signature.kind <;> rw [hkind] at hr <;> cases hr <;> simp
  rcases List.mem_append.1 hname with hname | hname
  · rcases mem_spelledNames.1 hname with ⟨-, rfl⟩ | ⟨-, rfl | rfl⟩ | ⟨hthrough, -⟩
    · exact absurd hfixed (by decide)
    · exact absurd hfixed (by decide)
    · exact absurd hfixed (by decide)
    · rw [MethodDef.callsThroughName, Bool.and_eq_true, Option.isNone_iff_eq_none] at hthrough
      rw [hthrough.2] at hr
      cases hr
  · obtain ⟨path, -, hpath⟩ := List.mem_filterMap.1 hname
    refine (built.fresh hpath).1 ?_
    unfold Alias.fixedNames
    rcases hfixed with rfl | rfl <;> simp

/-- A parameter is none of them exactly if it is no name spelled out and becomes none; no symbol has its name. -/
theorem param_not_mem_identifiers (owner : String) {p : Param} (hp : p ∈ m.signature.params) :
    Text.privateName owner p.name ∉ (c.within owner).identifiers ↔
      p.name ∉ m.spelledNames b ∧ ∀ name ∈ m.spelledNames b ++ m.symbolNames b, ¬Text.Merges owner p.name name := by
  rw [mem_identifiers_within hc owner]
  constructor
  · intro hfree
    refine ⟨fun hspelled => hfree ⟨_, List.mem_append_left _ hspelled, rfl⟩, ?_⟩
    rintro name hname ⟨-, heq⟩
    exact hfree ⟨name, hname, heq.symm⟩
  · rintro ⟨hspelled, hapart⟩ ⟨name, hname, heq⟩
    by_cases hsame : p.name = name
    · rcases List.mem_append.1 hname with hname | hname
      · exact hspelled (hsame ▸ hname)
      · obtain ⟨path, -, hpath⟩ := List.mem_filterMap.1 hname
        exact built.apart hpath (hsame ▸ List.mem_map_of_mem hp)
    · exact hapart name hname ⟨hsame, heq.symm⟩

theorem leavesNames_iff (legal : ParamShape.IsLegal (m.signature.params.map Param.shape)) (owner : String) :
    (c.within owner).LeavesNames ↔ m.LeavesNames owner b := by
  have hnames : (c.within owner).LeavesNames ↔
      ∀ name ∈ (c.within owner).formals.map Formal.name, name ∉ (c.within owner).identifiers := by
    rw [List.forall_mem_map]
    rfl
  have hparam : ∀ p ∈ m.signature.params, _ := fun p hp => param_not_mem_identifiers hc built owner hp
  rw [hnames, names_within hc legal owner]
  unfold MethodDef.LeavesNames
  constructor
  · intro hfree
    have hmem : ∀ p ∈ m.signature.params, Text.privateName owner p.name ∉ (c.within owner).identifiers := by
      intro p hp
      exact hfree _ (List.mem_append_right _ (List.mem_map.2 ⟨p, hp, rfl⟩))
    exact ⟨fun p hp => ((hparam p hp).1 (hmem p hp)).1, fun p hp => ((hparam p hp).1 (hmem p hp)).2⟩
  · rintro ⟨hspelled, hapart⟩ name hname
    rcases List.mem_append.1 hname with hname | hname
    · exact receiver_not_mem_identifiers hc built owner name (Option.mem_toList.1 hname)
    · obtain ⟨p, hp, rfl⟩ := List.mem_map.1 hname
      exact (hparam p hp).2 ⟨hspelled p hp, hapart p hp⟩

end Emitted

/-! ## Lines of a class -/

theorem Line.leaves_within (owner : String) (l later : Line) :
    (l.within owner).Leaves (later.within owner) ↔ l.Leaves later := by
  have hmarks : Text.privateName owner l.name ∈ marks ↔ l.name ∈ marks := by
    unfold marks
    simp only [List.mem_cons, List.not_mem_nil, or_false]
    exact or_congr (Text.privateName_eq_plain_iff (by decide +kernel)) (Text.privateName_eq_plain_iff (by decide +kernel))
  exact imp_congr Iff.rfl (imp_congr Iff.rfl (not_congr hmarks))

theorem fieldLine_line {b : Blueprint} {f : FieldDef} {line : FieldLine} (h : fieldLine b f = .ok line) :
    line.line = f.line := by
  have hborrowed : ∀ {line : FieldLine}, (do
      let owner ← aliasOf b f.origin
      readable (isFieldName f.name && Text.isFreeName owner)
      return { name := f.name, value := some (.copied owner), visibility := f.visibility : FieldLine }) = .ok line →
      line.line = ⟨f.name, true, true⟩ := by
    intro line h
    obtain ⟨owner, -, h⟩ := Outcome.bind_eq_ok.1 h
    obtain ⟨_, -, h⟩ := Outcome.bind_eq_ok.1 h
    cases h
    rfl
  unfold fieldLine at h
  unfold FieldDef.line
  cases hdescriptor : f.isDescriptor with
  | true =>
    rw [hdescriptor] at h
    exact hborrowed h
  | false =>
    rw [hdescriptor] at h
    cases hdefault : f.default with
    | none =>
      rw [hdefault] at h
      obtain ⟨_, -, h⟩ := Outcome.bind_eq_ok.1 h
      cases h
      rfl
    | some text =>
      rw [hdefault] at h
      cases hliteral : isLiteral text with
      | true =>
        simp only [hliteral] at h
        obtain ⟨_, -, h⟩ := Outcome.bind_eq_ok.1 h
        cases h
        rfl
      | false =>
        simp only [hliteral] at h
        obtain ⟨copied, hcopied, h⟩ := Outcome.bind_eq_ok.1 h
        cases h
        have hline := hborrowed hcopied
        exact hline

/-- The lines of a class are those of its plan, in order. -/
theorem lines_eq {b : Blueprint} {k : Class} (hk : classOf b = .ok k) : k.lines = b.lines := by
  obtain ⟨hfields, hmethods, -⟩ := classOf_eq_ok hk
  refine congrArg₂ _ ?_ ?_
  · exact Outcome.map_eq_of_mapM hfields fun f _ line hline => fieldLine_line hline
  · refine Outcome.map_eq_of_mapM hmethods fun m _ c hc => ?_
    obtain ⟨hname, hkind, -⟩ := methodOf_eq_ok hc
    rw [Method.line, MethodDef.line, hname, hkind]

end Source

/-! ## Exactly what keeps names apart -/

/-- What is built from live classes has legal signatures. -/
theorem Blueprint.isLegal_of_build {w : World} (legal : w.IsLegal) {d : Defaults} {strict : Bool} {q : Request}
    {b : Blueprint} {t t' : Planning Roster} (known : t.provider.IsLegal)
    (hb : (build (Provider.live w) d strict q).runFrom t = (.ok b, t')) {m : MethodDef} (hm : m ∈ b.methods) :
    ParamShape.IsLegal (m.signature.params.map Param.shape) := by
  obtain ⟨o, u, claims, ho, -, rfl⟩ := build_eq_ok hb
  have sound := outline_eq_ok (Provider.keeps_live legal) known ho
  obtain ⟨definitions, hdefinitions, planned⟩ := sound.methods m hm
  obtain ⟨reference, rest, heq, -⟩ := planned.reference
  obtain ⟨-, -, manifest, role, good, hmem⟩ :=
    sound.members.source _ hdefinitions (reference, m.signature) (heq ▸ List.mem_cons_self)
  exact good _ (List.mem_filter.1 hmem).1

/--
For every composite of live classes, its code as text and as it is read inside its class: the parameters of a method are
apart exactly if none of its signature is named as the receiver, they leave all names alone that the body relies on
exactly if none has a name that the body spells out (the names of symbols they never have), and the marks of static and
class methods are what they seem wherever a mark or a value is evaluated exactly if no earlier member or stored field
has such a name. Private names must not become one of the others besides.
-/
theorem Source.isHygienic_iff {w : World} (legal : w.IsLegal) {d : Blueprint.Defaults} {strict : Bool} {q : Request}
    {b : Blueprint} {t t' : Planning Roster} (known : t.provider.IsLegal)
    (hb : (Blueprint.build (Provider.live w) d strict q).runFrom t = (.ok b, t')) (owner : String) :
    (∀ m ∈ b.methods, ∀ c, methodOf b m = .ok c →
      ((c.within owner).HasDistinctFormals ↔ m.HasDistinctParams owner) ∧
      ((c.within owner).LeavesNames ↔ m.LeavesNames owner b)) ∧
    ∀ k, classOf b = .ok k →
      ((k.lines.map (Line.within owner)).Pairwise Line.Leaves ↔ b.lines.Pairwise Line.Leaves) := by
  constructor
  · intro m hm c hc
    have hlegal := Blueprint.isLegal_of_build legal known hb hm
    exact ⟨hasDistinctFormals_iff hc hlegal owner,
      leavesNames_iff hc (MethodDef.isBuilt_of_build hb hm) hlegal owner⟩
  · intro k hk
    rw [lines_eq hk, List.pairwise_map]
    simp only [Line.leaves_within]

/-- A class whose method names its receiver as it likes, and a hook for it. -/
def World.freely : World :=
  { fresh with
    classes := fresh.classes ++
      #[{ name := "Cart", qualname := "Cart", home := "shop", order := [absentId + 1, objectId],
          slots := [("total", .routine .ofInstance 9)] },
        { name := "Audit", qualname := "Audit", home := "shop", order := [absentId + 2, objectId],
          slots := [("BEFORE_total", .routine .ofInstance 10)] }]
    functions := fresh.functions ++
      #[{ name := "total", qualname := "Cart.total", home := "shop",
          params := [{ name := "this" }, { name := "self" }, { name := "isinstance", kind := .keywordOnly }],
          body := .nothing },
        { name := "BEFORE_total", qualname := "Audit.BEFORE_total", home := "shop",
          params := [{ name := "me" }, { name := "__all", kind := .varPositional }], body := .nothing }] }

theorem Source.isHygienic_iff_freely :
    ∃ b t', (Blueprint.build (Provider.live .freely)
        ⟨.function World.executeId, .function World.lastDecisionId, .cls World.shortCircuitId, .cls World.replaceId,
          .function World.parameterDefaultId⟩ true
        { name := "Sale", base := .live 7 ⟨"shop", "Cart"⟩, mixins := [.live 8 ⟨"shop", "Audit"⟩],
          before := .one "total" }).runFrom ⟨{}, []⟩ = (.ok b, t') ∧
      (∃ m ∈ b.methods, ∃ c, methodOf b m = .ok c ∧ m.name = "total" ∧
        ¬(c.within "").HasDistinctFormals ∧ ¬(c.within "").LeavesNames) ∧
      (∃ m ∈ b.methods, ∃ c, methodOf b m = .ok c ∧ m.name = "BEFORE_total" ∧
        (c.within "Sale").HasDistinctFormals ∧ (c.within "Sale").LeavesNames) ∧
      ∃ k, classOf b = .ok k ∧ (k.lines.map (Line.within "Sale")).Pairwise Line.Leaves := by
  generalize hrun : (Blueprint.build (Provider.live .freely) _ true _).runFrom (⟨{}, []⟩ : Planning Roster) = r
  have hmethods : (r.1.toOption.map fun b => b.methods.map fun m => (m.name, (methodOf b m).toOption.isSome,
        ["", "Sale"].map fun owner => (decide (m.HasDistinctParams owner), decide (m.LeavesNames owner b)))) =
      some [("total", true, [(false, false), (false, false)]), ("BEFORE_total", true, [(true, true), (true, true)])] := by
    rw [← hrun]
    decide +kernel
  have hclass : (r.1.toOption.map fun b => ((classOf b).toOption.isSome, decide (b.lines.Pairwise Line.Leaves))) =
      some (true, true) := by
    rw [← hrun]
    decide +kernel
  obtain ⟨outcome, t'⟩ := r
  cases outcome with
  | error e => cases hmethods
  | ok b =>
    obtain ⟨m, ms, hms, hm, hrest⟩ := List.map_eq_cons_iff.1 (Option.some.inj hmethods)
    obtain ⟨m', ms', rfl, hm', -⟩ := List.map_eq_cons_iff.1 hrest
    have hmem : m ∈ b.methods ∧ m' ∈ b.methods := by simp [hms]
    have hlines := Option.some.inj hclass
    simp only [List.map_cons, List.map_nil, Prod.mk.injEq, List.cons.injEq, decide_eq_true_eq, decide_eq_false_iff_not]
      at hm hm' hlines
    obtain ⟨c, hc⟩ := Outcome.exists_eq_ok_of_isSome hm.2.1
    obtain ⟨c', hc'⟩ := Outcome.exists_eq_ok_of_isSome hm'.2.1
    obtain ⟨k, hk⟩ := Outcome.exists_eq_ok_of_isSome hlines.1
    have legal : World.freely.IsLegal := by decide +kernel
    have known : Roster.IsLegal {} := fun e he => absurd he List.not_mem_nil
    have htext := (isHygienic_iff legal known hrun "").1 m hmem.1 c hc
    obtain ⟨hread, hmarks⟩ := isHygienic_iff legal known hrun "Sale"
    have hhook := hread m' hmem.2 c' hc'
    refine ⟨b, t', rfl, ⟨m, hmem.1, c, hc, hm.1, ?_, ?_⟩, ⟨m', hmem.2, c', hc', hm'.1, ?_, ?_⟩, k, hk, ?_⟩
    · exact fun h => hm.2.2.1.1 (htext.1.1 h)
    · exact fun h => hm.2.2.1.2 (htext.2.1 h)
    · exact hhook.1.2 hm'.2.2.2.1.1
    · exact hhook.2.2 hm'.2.2.2.1.2
    · exact (hmarks k hk).2 hlines.2

end Amalgam
