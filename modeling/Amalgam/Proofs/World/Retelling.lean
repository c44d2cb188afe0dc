import Amalgam.Proofs.Literal.Record
import Amalgam.Proofs.Source.Forwarding
import Amalgam.Proofs.World.Methods

/-!
# What code retells of a signature

The code of a method writes its parameters down, and a manifest of the class that the code defines records them again. A
parameter comes back with the name that it has inside the class, and a default that is a literal as its value is written
(`Param.retold`); everything else comes back as it was (`World.paramsOf_functionOf`).
-/

namespace Amalgam

/-- How a default that is written down is recorded: a literal by the value that it stands for, anything else as it was. -/
def World.respell (w : World) (text : String) : String :=
  if isLiteral text then w.spell (literalDefault text) else text

/-- A parameter as a class of the given name records it of code. -/
def Param.retold (w : World) (owner : String) (p : Param) : Param :=
  { p with name := Text.privateName owner p.name, default := p.default.map w.respell }

/-- A signature as the manifest of a class has it whose code was written for it. -/
def Signature.retold (w : World) (id : Nat) (owner : String) (s : Signature) : Signature :=
  { s with
    visibility := nameVisibility s.name (w.ownersOf id)
    params := s.params.map (Param.retold w owner)
    isAbstract := false
    isFinal := false }

/-- The default that code has for one of a signature. -/
inductive Source.Writes (b : Blueprint) (function : Target) (name : String) : Option String → Option Default → Prop where
  | none : Writes b function name none none
  | literal {text : String} : isLiteral text = true → Writes b function name (some text) (some (.literal text))
  | readBack {text reader : String} : isLiteral text = false → b.aliases.get? SymbolRef.parameterDefault.path = some reader →
    Writes b function name (some text) (some (.readBack reader function name))

namespace Source

variable {b : Blueprint} {function : Target} {p : Param} {f : Formal}

theorem writes_of_defaultOf {default : Option Default} (h : defaultOf b function p = .ok default) :
    Writes b function p.name p.default default := by
  unfold defaultOf at h
  cases hp : p.default with
  | none =>
    rw [hp] at h
    cases h
    exact .none
  | some text =>
    rw [hp] at h
    dsimp only at h
    by_cases hliteral : isLiteral text = true
    · rw [if_pos hliteral] at h
      obtain ⟨_, -, h⟩ := Outcome.bind_eq_ok.1 h
      cases h
      exact .literal hliteral
    · rw [if_neg hliteral] at h
      obtain ⟨reader, hreader, h⟩ := Outcome.bind_eq_ok.1 h
      obtain ⟨_, -, h⟩ := Outcome.bind_eq_ok.1 h
      cases h
      exact .readBack (by simpa using hliteral) (aliasOf_eq_ok.1 hreader)

/-- A formal parameter says what its parameter does. -/
theorem formalOf_eq_ok (legal : p.kind.isVariadic = true → p.default.isSome = false) (h : formalOf b function p = .ok f) :
    f.name = p.name ∧ f.kind = p.kind ∧ f.hint = p.hint.map Text.Quoted.quote ∧
      Writes b function p.name p.default f.default := by
  obtain ⟨default, hdefault, h⟩ := Outcome.bind_eq_ok.1 h
  obtain ⟨name, hname, h⟩ := Outcome.bind_eq_ok.1 h
  cases h
  refine ⟨nodeName_eq_ok hname, rfl, rfl, ?_⟩
  have hnone : p.kind.isVariadic = true → p.default = none := fun hkind => by simpa using legal hkind
  unfold defaultFor at hdefault
  cases hkind : p.kind <;> rw [hkind] at hdefault hnone
  case varPositional =>
    cases hdefault
    rw [hnone rfl]
    exact .none
  case varKeyword =>
    cases hdefault
    rw [hnone rfl]
    exact .none
  all_goals exact writes_of_defaultOf hdefault

/-- Inside a class the function of a member is reached as outside, if no name on the way is private to it. -/
theorem implementation_within {owner head name : String} (hhead : Text.privateName owner head = head)
    (hname : Text.privateName owner name = name) (kind : MemberKind) :
    (implementation head kind name).within owner = implementation head kind name := by
  have hfunc : Text.privateName owner "__func__" = "__func__" := by
    unfold Text.privateName
    exact if_neg (by simp [show Text.isPrivateName "__func__" = false from by decide +kernel])
  unfold Target.within implementation
  rw [hhead]
  split
  · rw [List.map_cons, List.map_cons, List.map_nil, hname, hfunc]
  · rw [List.map_cons, List.map_nil, hname]

theorem Default.readBack_within {owner reader head name param : String} (hreader : Text.privateName owner reader = reader)
    (hhead : Text.privateName owner head = head) (hname : Text.privateName owner name = name) (kind : MemberKind) :
    (Default.readBack reader (implementation head kind name) param).within owner =
      .readBack reader (implementation head kind name) param := by
  rw [Default.within, hreader, implementation_within hhead hname]

theorem isAsync_of_methodOf {m : MethodDef} {c : Method} (h : methodOf b m = .ok c) : c.isAsync = m.signature.isAsync := by
  obtain ⟨name, -, h⟩ := Outcome.bind_eq_ok.1 h
  obtain ⟨formals, -, h⟩ := Outcome.bind_eq_ok.1 h
  obtain ⟨body, -, h⟩ := Outcome.bind_eq_ok.1 h
  cases h
  rfl

end Source

namespace World

variable {w u u' : World} {s : Scope} {b : Blueprint} {owner : String} {function : Source.Target}

theorem hintOf_quote (text : String) : hintOf (Text.Quoted.quote text) = .text text := by
  unfold hintOf
  rw [Literal.read?_of_reads (Literal.reads_quote text) (by decide)]

/-- A parameter of code is recorded as the one retold that it was written for, if a default that is read back is. -/
theorem paramOf_eq_retold {p : Param} {f : Source.Formal} {x : Parameter}
    (legal : p.kind.isVariadic = true → p.default.isSome = false) (hf : Source.formalOf b function p = .ok f)
    (hx : (s.parameter (f.within owner)).runFrom u = (.ok x, u'))
    (reads : ∀ text reader v, p.default = some text → isLiteral text = false →
      b.aliases.get? SymbolRef.parameterDefault.path = some reader →
      (s.defaultValue ((Source.Default.readBack reader function p.name).within owner)).runFrom u = (.ok v, u') →
      w.spell v = text) : w.paramOf x = p.retold w owner := by
  obtain ⟨hname, hkind, hhint, hdefault⟩ := parameter_eq_ok hx
  obtain ⟨hname', hkind', hhint', hwrites⟩ := Source.formalOf_eq_ok legal hf
  have hspelled : x.default.map w.spell = p.default.map w.respell := by
    have hwithin : (f.within owner).default = f.default.map (Source.Default.within owner) := rfl
    rw [hwithin] at hdefault
    generalize p.default = text? at hwrites reads ⊢
    generalize f.default = default at hwrites hdefault
    cases hwrites with
    | none =>
      obtain ⟨-, hnone⟩ | ⟨d, v, hd, -⟩ := hdefault
      · rw [hnone]
        rfl
      · cases hd
    | literal hliteral =>
      obtain ⟨hnone, -⟩ | ⟨d, v, hd, hvalue, hrun⟩ := hdefault
      · cases hnone
      · cases hd
        rw [Source.Default.within, runFrom_defaultValue_literal] at hrun
        cases hrun
        rw [hvalue, Option.map_some, Option.map_some, respell, if_pos hliteral]
    | readBack hliteral hreader =>
      obtain ⟨hnone, -⟩ | ⟨d, v, hd, hvalue, hrun⟩ := hdefault
      · cases hnone
      · cases hd
        rw [hvalue, Option.map_some, Option.map_some, respell, if_neg (by simp [hliteral]),
          reads _ _ v rfl hliteral hreader hrun]
  have hhinted : x.hint.map Hint.spell = p.hint := by
    rw [hhint]
    show (f.hint.map hintOf).map Hint.spell = _
    rw [hhint']
    cases p.hint with
    | none => rfl
    | some text =>
      rw [Option.map_some, Option.map_some, Option.map_some, hintOf_quote]
      rfl
  show Param.mk x.name x.kind (x.default.map w.spell) (x.hint.map Hint.spell) = _
  rw [hspelled, hhinted, hname, hkind]
  show Param.mk (Text.privateName owner f.name) f.kind _ _ = _
  rw [hname', hkind']
  rfl

variable {S : String → Prop} {ps : List Param} {fs : List Source.Formal} {xs : List Parameter}

/-- Parameters are recorded one by one, each as its code finds the world. -/
theorem map_paramOf_eq_retold {Met : World → Prop} (legal : ∀ p ∈ ps, p.kind.isVariadic = true → p.default.isSome = false)
    (hfs : List.Forall₂ (fun p f => Source.formalOf b function p = .ok f) ps fs)
    (hxs : List.Forall₂ (fun f x => ∃ u u', Met u ∧ (s.parameter f).runFrom u = (.ok x, u')) (fs.map (·.within owner)) xs)
    (reads : ∀ p ∈ ps, ∀ text reader v u u', p.default = some text → isLiteral text = false →
      b.aliases.get? SymbolRef.parameterDefault.path = some reader → Met u →
      (s.defaultValue ((Source.Default.readBack reader function p.name).within owner)).runFrom u = (.ok v, u') →
      w.spell v = text) : xs.map w.paramOf = ps.map (Param.retold w owner) := by
  induction hfs generalizing xs with
  | nil =>
    cases hxs
    rfl
  | @cons p f ps fs hf _ ih =>
    cases hxs with
    | cons hx hxs =>
      obtain ⟨u, u', hmet, hx⟩ := hx
      rw [List.map_cons, List.map_cons, paramOf_eq_retold (legal p List.mem_cons_self) hf hx
        fun text reader v hp hliteral hreader => reads p List.mem_cons_self text reader v u u' hp hliteral hreader hmet,
        ih (fun p hp => legal p (List.mem_cons_of_mem _ hp)) hxs fun p hp => reads p (List.mem_cons_of_mem _ hp)]

/-- A function that a method makes is recorded without the receiver that was put in front. -/
theorem paramsOf_functionOf {m : Source.Method} {moduleName : String}
    (hformals : m.formals = Source.withReceiver (Source.receiverOf m.kind) fs)
    (hxs : List.Forall₂ (fun f x => x.kind = f.kind) m.formals xs) :
    w.paramsOf m.kind (s.functionOf m moduleName xs) =
      (xs.drop (Source.receiverOf m.kind).toList.length).map w.paramOf := by
  refine (if_neg Bool.false_ne_true).trans ?_
  have hsplit : m.kind = .static ∨ ∃ name, Source.receiverOf m.kind = some name := by
    cases m.kind <;> simp [Source.receiverOf]
  rcases hsplit with hstatic | ⟨name, hname⟩
  · rw [hstatic]
    cases xs <;> rfl
  · rw [hformals, hname] at hxs
    rw [hname]
    cases hxs with
    | @cons _ x _ rest hreceiver hrest =>
      have hpositional : x.isPositional = true := by
        rw [Parameter.isPositional, hreceiver]
        dsimp only
        split <;> rfl
      have hbound : (m.kind != .static) = true := by
        cases hkind : m.kind with
        | static => simp [hkind, Source.receiverOf] at hname
        | _ => rfl
      show List.map w.paramOf (if (m.kind != .static && x.isPositional) = true then rest else x :: rest) = rest.map w.paramOf
      rw [hbound, hpositional]
      rfl

/-- The function of a method is recorded with the signature that its code was written for, retold. -/
theorem signatureOf_functionOf {Met : World → Prop} {m : MethodDef} {c : Source.Method} {id : Nat} {moduleName : String}
    (hc : Source.methodOf b m = .ok c) (legal : ParamShape.IsLegal (m.signature.params.map Param.shape))
    (named : m.signature.name = m.name)
    (hxs : List.Forall₂ (fun f x => ∃ u u', Met u ∧ (s.parameter f).runFrom u = (.ok x, u')) (c.within owner).formals xs)
    (reads : ∀ reference, b.aliases.get? m.reference = some reference → ∀ p ∈ m.signature.params, ∀ text reader v u u',
      p.default = some text → isLiteral text = false → b.aliases.get? SymbolRef.parameterDefault.path = some reader →
      Met u → (s.defaultValue ((Source.Default.readBack reader
        (Source.implementation reference m.signature.kind m.name) p.name).within owner)).runFrom u = (.ok v, u') →
      w.spell v = text) :
    w.signatureOf (w.ownersOf id) m.name c.kind (s.functionOf c moduleName xs) = m.signature.retold w id owner := by
  obtain ⟨-, hkind, -, hformals, -⟩ := Source.methodOf_eq_ok hc
  obtain ⟨reference, fs, href, hfs, -, heq⟩ := (Source.formalsOf_eq_ok legal).1 hformals
  have hdefaults : ∀ p ∈ m.signature.params, p.kind.isVariadic = true → p.default.isSome = false := fun p hp =>
    legal.variadic p.shape (List.mem_map_of_mem hp)
  have hkinds : List.Forall₂ (fun f x => x.kind = f.kind) c.formals xs := by
    refine (List.forall₂_map_left_iff.1 hxs).imp ?_
    rintro f x ⟨u, u', -, hx⟩
    exact (parameter_eq_ok hx).2.1
  have hparams : w.paramsOf c.kind (s.functionOf c moduleName xs) = _ := paramsOf_functionOf (hkind ▸ heq) hkinds
  have hdrop : (c.within owner).formals.drop (Source.receiverOf c.kind).toList.length = fs.map (·.within owner) := by
    show (c.formals.map (Source.Formal.within owner)).drop _ = _
    rw [← List.map_drop, heq, hkind, Source.drop_withReceiver]
  have hrest := List.forall₂_drop (Source.receiverOf c.kind).toList.length hxs
  rw [hdrop] at hrest
  rw [map_paramOf_eq_retold hdefaults (Outcome.mapM_eq_ok.1 hfs) hrest (reads reference (Source.aliasOf_eq_ok.1 href))]
    at hparams
  unfold signatureOf Signature.retold
  rw [hparams, named, hkind]
  show Signature.mk m.name _ _ _ false false (c.isAsync && !false) = _
  rw [Source.isAsync_of_methodOf hc, Bool.not_false, Bool.and_true]

end World

end Amalgam
