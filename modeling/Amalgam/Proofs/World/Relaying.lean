import Amalgam.Proofs.Source.Forwarding
import Amalgam.Proofs.World.Defaults
import Amalgam.Proofs.World.Roster

/-!
# Functions that hand their arguments on

A function that is generated to call the member of a class does in a call what that member does with the arguments
handed on, one level below (`World.handsOn_of_relays`); arguments that do not fit are refused by both
(`World.rejects_of_relays`). What is handed on is handed on unchanged again (`Parameter.Forwards.again`), so this goes
through any chain of such functions (`World.HandsOn.trans`).
-/

namespace Amalgam

open Source (forward implementation)

/-- A parameter without its annotation. -/
def Parameter.bare (p : Parameter) : Parameter := { p with hint := none }

/-- The parameters of a callable that shows none. -/
def World.unknownParameters : List Parameter :=
  [{ name := "args", kind := .varPositional }, { name := "kwargs", kind := .varKeyword }]

/-- The parameters that a function shows as a method of some kind. -/
def Function.shown (F : Function) (kind : MemberKind) : List Parameter :=
  if !F.isReadable then World.unknownParameters
  else
    match F.params with
    | p :: rest => if kind != MemberKind.static && p.isPositional then rest else F.params
    | [] => []

/-- What a member looks like from outside. -/
structure Face where
  kind : MemberKind
  isAsync : Bool
  params : List Parameter

namespace Face

/-- The parameter in front of the others that takes the receiver. -/
def receiver (φ : Face) : List Parameter :=
  (Source.receiverOf φ.kind).toList.map fun name =>
    { name, kind := if φ.params.any fun p => p.kind == .positionalOnly then .positionalOnly else .positionalOrKeyword }

/-- The parameters of a function that is generated for a member. -/
def formals (φ : Face) : List Parameter := φ.receiver ++ φ.params

end Face

namespace Behaviour

/-- What comes of a call, waited for if it has to be. -/
def result (b : Behaviour) (isAsync : Bool) (f : Value) (args : List Value) (keywords : Entries Value) : Act World Value := do
  let v ← b.call f args keywords
  if isAsync then b.await v else pure v

end Behaviour

namespace World

variable {w : World}

/-- The face of what a class stores, if it is a member. -/
def face? (w : World) : Slot → Option Face
  | .routine kind f => (w.function? f).map fun F => ⟨kind, F.isAsync && !F.isWrapped, (F.shown kind).map Parameter.bare⟩
  | .staticValue _ => some ⟨.static, false, unknownParameters⟩
  | _ => none

/-- Members keep their faces. -/
theorem Evolves.face? {S : String → Prop} {w' : World} (h : Evolves S w w') {slot : Slot} {φ : Face}
    (hface : w.face? slot = some φ) : w'.face? slot = some φ := by
  cases slot with
  | routine kind f =>
    obtain ⟨F, hF, rfl⟩ := Option.map_eq_some_iff.1 hface
    exact Option.map_eq_some_iff.2 ⟨F, h.function? hF, rfl⟩
  | staticValue v => exact hface
  | _ => cases hface

/-- A call comes to what another comes to, however many levels there are below. -/
def HandsOn (w : World) (isAsync : Bool) (f : Value) (args : List Value) (keywords : Entries Value) (f' : Value)
    (args' : List Value) (keywords' : Entries Value) : Prop :=
  ∃ d, ∀ k, ((Behaviour.levels (k + d)).result isAsync f args keywords).runFrom w =
    ((Behaviour.levels k).result isAsync f' args' keywords').runFrom w

/-- A call is refused for its arguments, however many levels there are below. -/
def Rejects (w : World) (f : Value) (args : List Value) (keywords : Entries Value) : Prop :=
  ∀ k, ((Behaviour.levels (k + 1)).call f args keywords).runFrom w = (.error (.fault .type), w)

/-- A function hands on to the member of a class what it is called with. -/
structure Relays (w : World) (G : Function) (φ : Face) (id : Nat) (name : String) : Prop where
  isAsync : G.isAsync = φ.isAsync
  isPlain : G.isWrapped = false ∧ G.isReadable = true ∧ G.isAbstract = false ∧ G.isFinal = false
  params : G.params.map Parameter.bare = φ.formals
  body : ∃ (home : Nat) (M : Module) (owner : String) (ps : List Param), w.modules[home]? = some M ∧
    M.names.get? owner = some (.cls id) ∧ Text.isComposed owner = true ∧ owner ∉ φ.formals.map Parameter.name ∧
    ps.map Param.shape = φ.formals.map Parameter.shape ∧
    G.body = .generated [.give (.call ⟨implementation owner φ.kind name, ps.map forward, φ.isAsync⟩)] home

theorem HandsOn.trans {isAsync : Bool} {f f' f'' : Value} {args args' args'' : List Value}
    {keywords keywords' keywords'' : Entries Value} (h : w.HandsOn isAsync f args keywords f' args' keywords')
    (h' : w.HandsOn isAsync f' args' keywords' f'' args'' keywords'') :
    w.HandsOn isAsync f args keywords f'' args'' keywords'' := by
  obtain ⟨d, hd⟩ := h
  obtain ⟨d', hd'⟩ := h'
  refine ⟨d' + d, fun k => ?_⟩
  rw [← Nat.add_assoc, hd, hd']

end World

/-! ## Arguments handed on -/

namespace Parameter

variable {ps : List Parameter} {args vs : List Value} {keywords ks : Entries Value}

/-- The arguments that are handed on, if parameters are bound and then given as they are. -/
def Forwards (ps : List Parameter) (args : List Value) (keywords : Entries Value) (vs : List Value) (ks : Entries Value) :
    Prop :=
  ∃ env extra, bind? ps args keywords = some env ∧ Handed extra (ps.map shape) env vs ks ∧ bind? ps vs ks = some env ∧
    ks.keys.Nodup

/-- Arguments handed on are handed on unchanged. -/
theorem Forwards.again (h : Forwards ps args keywords vs ks) : Forwards ps vs ks vs ks := by
  obtain ⟨env, extra, -, handed, again, distinct⟩ := h
  exact ⟨env, extra, again, handed, again, distinct⟩

/-- Arguments that fit are handed on. -/
theorem exists_forwards (args : List Value) (legal : ParamShape.IsLegal (ps.map shape)) (distinct : keywords.keys.Nodup) :
    bind? ps args keywords = none ∨ ∃ vs ks, Forwards ps args keywords vs ks := by
  cases hbind : bind? ps args keywords with
  | none => exact Or.inl rfl
  | some env =>
    obtain ⟨hfrom, hsurplus⟩ := bind?_eq_some hbind
    obtain ⟨vs, ks, handed⟩ := exists_handed hfrom
    have hextra : (extra ps keywords).keys.Nodup := nodup_keys_extra distinct
    have hfree : ∀ s ∈ ps.map shape, s.isNamed = true → s.name ∉ (extra ps keywords).keys := fun _ hs =>
      name_not_mem_extra hs
    exact Or.inr ⟨vs, ks, env, _, hbind, handed, bind?_of_handed handed legal hextra hfree hsurplus rfl,
      handed.nodup_keywords legal hextra hfree⟩

theorem extra_bare : extra (ps.map bare) keywords = extra ps keywords := by
  unfold extra
  simp only [List.any_map]
  rfl

/-- Binding does not look at annotations. -/
theorem bind?_bare : bind? (ps.map bare) args keywords = bind? ps args keywords := by
  have hfrom : ∀ extra args, bindFrom keywords extra (ps.map bare) args = bindFrom keywords extra ps args := by
    intro extra
    induction ps with
    | nil => exact fun _ => rfl
    | cons p ps ih =>
      intro args
      obtain ⟨name, kind, default, hint⟩ := p
      cases kind <;> cases args <;> simp only [List.map_cons, bare, bindFrom, ih] <;> rfl
  unfold bind?
  simp only [extra_bare, hfrom, List.any_map]
  rfl

theorem shape_bare : (ps.map bare).map shape = ps.map shape := by
  rw [List.map_map]
  rfl

end Parameter

namespace World

open Parameter (Forwards)

variable {w : World} {G : Function} {φ : Face} {g id : Nat} {name : String} {slot : Slot} {c : Value} {args vs : List Value}
  {keywords ks : Entries Value}

/-! ## Calls of functions that hand on -/

theorem Relays.bind?_eq (relays : w.Relays G φ id name) :
    Parameter.bind? G.params args keywords = Parameter.bind? φ.formals args keywords := by
  rw [← relays.params, Parameter.bind?_bare]

theorem Relays.shapes (relays : w.Relays G φ id name) : G.params.map Parameter.shape = φ.formals.map Parameter.shape := by
  rw [← relays.params, Parameter.shape_bare]

/-- A function is called by binding its parameters. -/
theorem runFrom_levels_call (hg : w.function? g = some G) (args : List Value) (keywords : Entries Value) (k : Nat) :
    ((Behaviour.levels (k + 1)).call (.function g) args keywords).runFrom w =
      match Parameter.bind? G.params args keywords with
      | none => (.error (.fault .type), w)
      | some env => (if G.isAsync then pure (.pending g env) else (Behaviour.levels k).runBody G env).runFrom w := by
  show ((Behaviour.levels k).apply g args keywords).runFrom w = _
  unfold Behaviour.apply
  rw [Act.runFrom_bind, Act.runFrom_get]
  simp only [hg]
  cases Parameter.bind? G.params args keywords <;> rfl

/-- A function that hands on looks like the member that it hands on to. -/
theorem face?_of_relays (relays : w.Relays G φ id name) (hg : w.function? g = some G) :
    w.face? (.routine φ.kind g) = some φ := by
  obtain ⟨hwrapped, hreadable, -, -⟩ := relays.isPlain
  have hshown : (G.shown φ.kind).map Parameter.bare = φ.params := by
    have hparams := relays.params
    unfold Function.shown
    rw [hreadable, Bool.not_true, if_neg Bool.false_ne_true]
    unfold Face.formals Face.receiver at hparams
    cases hkind : φ.kind with
    | static =>
      rw [hkind] at hparams
      cases hall : G.params with
      | nil =>
        rw [hall] at hparams
        exact hparams
      | cons p rest =>
        rw [hall] at hparams
        exact hparams
    | _ =>
      rw [hkind] at hparams
      obtain ⟨p, rest, hall, hp, hrest⟩ := List.map_eq_cons_iff.1 hparams
      have hpositional : p.isPositional = true := by
        show Parameter.isPositional p.bare = true
        rw [hp]
        unfold Parameter.isPositional
        dsimp only
        split <;> rfl
      rw [hall]
      simp only [hpositional]
      exact hrest
  show (w.function? g).map _ = _
  rw [hg, Option.map_some, hshown, relays.isAsync, hwrapped, Bool.not_false, Bool.and_true]

/-- Arguments that do not fit are refused. -/
theorem rejects_of_relays (relays : w.Relays G φ id name) (hg : w.function? g = some G)
    (hbind : Parameter.bind? φ.formals args keywords = none) : w.Rejects (.function g) args keywords := by
  intro k
  rw [runFrom_levels_call hg, relays.bind?_eq, hbind]

section Targets

variable {home : Nat} {M : Module} {owner : String} {kind : MemberKind} {locals : Entries Value} {names : List String}
  (hM : w.modules[home]? = some M) (hglobal : M.names.get? owner = some (.cls id)) (composed : Text.isComposed owner = true)

include hM hglobal composed

/-- A name of a module stands for its class in a body, unless a local variable takes its place. -/
theorem runFrom_lookUp_class (b : Behaviour) (hlocal : locals.get? owner = none) (hnames : owner ∉ names) :
    (Source.lookUp ((b.surroundings (some home)).hide names) locals owner).runFrom w = (.ok (.cls id), w) := by
  have hfound : w.global? home owner = some (.cls id) := by
    unfold global?
    rw [if_pos composed, hM, Option.bind_some, hglobal]
    rfl
  unfold Source.lookUp
  rw [hlocal]
  show (if names.contains owner then _ else (b.surroundings (some home)).lookUp owner : Act World Value).runFrom w = _
  rw [if_neg (by simpa using hnames)]
  unfold Behaviour.surroundings
  dsimp only
  rw [Act.runFrom_bind, Act.runFrom_get]
  dsimp only
  rw [Option.bind_some, hfound]
  rfl

/-- So the implementation of a member, written as what a body calls, is what the class stores. -/
theorem runFrom_eval_implementation (hslot : w.slot? id name = some slot) (hc : slot.callee? = some (kind, c)) (k : Nat)
    (hlocal : locals.get? owner = none) (hnames : owner ∉ names) :
    (Source.Target.eval (((Behaviour.levels (k + 1)).surroundings (some home)).hide names) locals
      (implementation owner kind name)).runFrom w = (.ok c, w) := by
  have howner := runFrom_lookUp_class hM hglobal composed (Behaviour.levels (k + 1)) hlocal hnames
  unfold Source.Target.eval
  rw [Act.runFrom_bind, show (implementation owner kind name).head = owner from rfl, howner]
  exact runFrom_next_attrs_implementation (Behaviour.levels k) hslot hc

end Targets

/-- The call in the body of a function that hands on. -/
theorem runFrom_runBody_relays (relays : w.Relays G φ id name) {env extra : Entries Value}
    (handed : Handed extra (φ.formals.map Parameter.shape) env vs ks) (distinct : (φ.formals.map Parameter.name).Nodup)
    (hks : ks.keys.Nodup) (hslot : w.slot? id name = some slot) (hc : slot.callee? = some (φ.kind, c)) (k : Nat) :
    ((Behaviour.levels k).runBody G env).runFrom w = ((Behaviour.levels k).result φ.isAsync c vs ks).runFrom w := by
  obtain ⟨home, M, owner, ps, hM, hglobal, hcomposed, hlocal, hshapes, hbody⟩ := relays.body
  have hkeys : env.keys = φ.formals.map Parameter.name := by
    rw [handed.keys_env, List.map_map]
    rfl
  have hfree : env.get? owner = none := by
    rw [Entries.get?_eq_none_iff, hkeys]
    exact hlocal
  have hlocals : ∀ e ∈ env, env.get? (Text.privateName "" e.1) = some e.2 := by
    intro e he
    rw [Source.privateName_empty]
    exact Entries.get?_of_mem (hkeys ▸ distinct) he
  have howner := runFrom_lookUp_class hM hglobal hcomposed (Behaviour.levels k) hfree (List.not_mem_nil (a := owner))
  unfold Behaviour.runBody
  rw [hbody]
  show (Source.Call.eval (((Behaviour.levels k).surroundings (some home)).hide []) env
    ⟨implementation owner φ.kind name, ps.map forward, φ.isAsync⟩).runFrom w = _
  generalize hs : ((Behaviour.levels k).surroundings (some home)).hide [] = s at howner
  have hargs : Source.evalArgs s env [] [] (ps.map forward) = pure (some (vs, ks)) := by
    have hforward : Source.evalArgs s env [] [] (ps.map fun p => (forward p).within "") = pure (some ([] ++ vs, [] ++ ks)) :=
      Source.evalArgs_forward s "" handed hshapes hlocals hks
    simpa only [Source.Arg.within_empty, List.nil_append] using hforward
  unfold Source.Call.eval
  cases k with
  | zero =>
    unfold Source.Target.eval
    rw [bind_assoc, Act.runFrom_bind, show (implementation owner φ.kind name).head = owner from rfl, howner]
    subst hs
    unfold implementation
    dsimp only
    split <;> rfl
  | succ k =>
    have hfound := runFrom_eval_implementation hM hglobal hcomposed hslot hc k hfree (List.not_mem_nil (a := owner))
    rw [hs] at hfound
    rw [Act.runFrom_bind, hfound]
    dsimp only
    rw [hargs, pure_bind]
    subst hs
    rfl

/-- What is handed on is what the member is called with, one level below. -/
theorem handsOn_of_relays (relays : w.Relays G φ id name) (hg : w.function? g = some G)
    (legal : ParamShape.IsLegal (φ.formals.map Parameter.shape)) (forwards : Forwards φ.formals args keywords vs ks)
    (hslot : w.slot? id name = some slot) (hc : slot.callee? = some (φ.kind, c)) :
    w.HandsOn φ.isAsync (.function g) args keywords c vs ks := by
  obtain ⟨env, extra, hbind, handed, -, hks⟩ := forwards
  have distinct : (φ.formals.map Parameter.name).Nodup := by
    have := legal.distinct
    rwa [List.map_map] at this
  refine ⟨1, fun k => ?_⟩
  rw [← runFrom_runBody_relays relays handed distinct hks hslot hc k]
  have hcall := runFrom_levels_call hg args keywords k
  rw [relays.bind?_eq, hbind, relays.isAsync] at hcall
  dsimp only at hcall
  unfold Behaviour.result
  rw [Act.runFrom_bind, hcall]
  cases φ.isAsync with
  | false =>
    simp only [Bool.false_eq_true, if_false]
    generalize ((Behaviour.levels k).runBody G env).runFrom w = r
    obtain ⟨outcome, u⟩ := r
    cases outcome <;> rfl
  | true =>
    simp only [if_true, Act.runFrom_pure]
    show ((Behaviour.levels k).next.await (.pending g env)).runFrom w = _
    unfold Behaviour.next
    dsimp only
    rw [Act.runFrom_bind, Act.runFrom_get]
    simp only [hg]

end World

end Amalgam
