import Amalgam.Proofs.Session.Composing
import Amalgam.Proofs.Session.Roundtrip
import Amalgam.Proofs.World.Making

/-!
# Composites of live classes

A mix of live classes that passes their members through makes a class of code that only reads (`Session.isPassive`). So the
class has, under each name, what its plan says: a method that relays (`Session.relays_of_makes`), a field that is carried
(`Session.carries_of_gives`), or nothing (`Session.composes_of_mixes`).
-/

namespace Amalgam

open Source (implementation)
open World (Evolves Made)

/-- A plan whose code says what it means: fields are set on the class itself and none has a private name, the marks of static
and class methods are what they seem, every symbol is found by its name, and computed defaults can be read back. -/
structure Blueprint.IsStraight (w : World) (b : Blueprint) : Prop where
  fields : ∀ f ∈ b.fields, '.' ∉ f.name.toList ∧ Text.privateName b.name f.name = f.name
  marks : b.lines.Pairwise Source.Line.Leaves
  aliases : ∀ path name, b.aliases.get? path = some name → Text.IsStable b.name name
  defaults : ∀ m ∈ b.methods, m.hasComputedDefaults = true → m.ReadsBack w b

/-- A mix of a base and mixins that are there, which passes through what they have by a straight plan and sets a name on no
other class. -/
structure Session.Mixes (p : Session) (name : String) (base : Nat) (mixins : List Nat) (id : Nat) (p' : Session) : Prop where
  mixed : ∃ settings binds q, q.Passes p.world base mixins ∧ (mix .live settings binds q).runFrom p = (.ok id, p') ∧
    ∀ b p₁, (plan .live settings q).runFrom p = (.ok b, p₁) → b.IsStraight p.world
  furnished : p.world.IsFurnished
  closed : p.world.IsClosed
  filed : p.world.IsFiled
  known : ∀ C ∈ base :: mixins, C < p.world.classes.size
  calm : p.world.Calm name id p'.world

/-- What a world may have become since: a name has not been set on any class, and all modules are as they were. -/
structure World.Lasts (name : String) (w w' : World) : Prop where
  evolves : Evolves (· ≠ name) w w'
  modules : w.KeepsModules w'

theorem World.Lasts.refl (name : String) (w : World) : w.Lasts name w := ⟨Evolves.refl w, KeepsModules.refl w⟩

theorem World.Lasts.trans {name : String} {w w' w'' : World} (h : w.Lasts name w') (h' : w'.Lasts name w'') :
    w.Lasts name w'' :=
  ⟨h.evolves.trans h'.evolves, h.modules.trans h'.modules⟩

/-! ## Code that only reads -/

namespace Source

variable {b : Blueprint} {f : FieldDef} {line : FieldLine} {home : Nat} {w : World}

/-- The line of a field: its value is copied from the class that it comes from, or a literal, or there is none. -/
theorem fieldLine_eq_ok (h : fieldLine b f = .ok line) :
    (∃ owner, b.aliases.get? f.origin = some owner ∧ line.value = some (.copied owner) ∧
        (f.isDescriptor = true ∧ line.hint = none ∨ f.isDescriptor = false ∧ line.hint = f.hint.map Text.Quoted.quote ∧
          ∃ text, f.default = some text ∧ isLiteral text = false)) ∨
      (∃ text, f.default = some text ∧ isLiteral text = true ∧ line.value = some (.literal text) ∧
        f.isDescriptor = false ∧ line.hint = f.hint.map Text.Quoted.quote) ∨
      f.default = none ∧ line.value = none ∧ line.hint = some ((f.hint.map Text.Quoted.quote).getD "None") := by
  unfold fieldLine at h
  cases hdescriptor : f.isDescriptor with
  | true =>
    rw [hdescriptor] at h
    obtain ⟨owner, howner, h⟩ := Outcome.bind_eq_ok.1 h
    obtain ⟨_, -, h⟩ := Outcome.bind_eq_ok.1 h
    cases h
    exact Or.inl ⟨owner, aliasOf_eq_ok.1 howner, rfl, Or.inl ⟨rfl, rfl⟩⟩
  | false =>
    rw [hdescriptor] at h
    cases hdefault : f.default with
    | none =>
      rw [hdefault] at h
      obtain ⟨_, -, h⟩ := Outcome.bind_eq_ok.1 h
      cases h
      exact Or.inr (Or.inr ⟨rfl, rfl, rfl⟩)
    | some text =>
      rw [hdefault] at h
      cases hliteral : isLiteral text with
      | true =>
        simp only [hliteral] at h
        obtain ⟨_, -, h⟩ := Outcome.bind_eq_ok.1 h
        cases h
        exact Or.inr (Or.inl ⟨text, rfl, hliteral, rfl, rfl, rfl⟩)
      | false =>
        simp only [hliteral] at h
        obtain ⟨copied, hcopied, h⟩ := Outcome.bind_eq_ok.1 h
        cases h
        obtain ⟨owner, howner, hcopied⟩ := Outcome.bind_eq_ok.1 hcopied
        obtain ⟨_, -, hcopied⟩ := Outcome.bind_eq_ok.1 hcopied
        cases hcopied
        exact Or.inl ⟨owner, aliasOf_eq_ok.1 howner, rfl, Or.inr ⟨rfl, rfl, text, rfl, hliteral⟩⟩

/-- A parameter is passive if its default is. -/
theorem Formal.isPassive_of_default {g : Formal} (h : ∀ d, g.default = some d → ∀ (s : World.Scope) more v w', s.home = home →
    (s.defaultValue d).runFrom (w.withMore more) = (.ok v, w') → w' = w.withMore more) : g.IsPassive home w := by
  intro s more p w' hhome hrun
  obtain ⟨default, u, hdefault, hdone⟩ := Act.bind_eq_ok.1 hrun
  cases hdone
  cases hd : g.default with
  | none =>
    rw [hd] at hdefault
    cases hdefault
    rfl
  | some d =>
    rw [hd] at hdefault
    obtain ⟨v, x, hv, hdone⟩ := Act.bind_eq_ok.1 hdefault
    cases hdone
    exact h d hd s more v _ hhome hv

end Source

namespace Session

open Blueprint

variable {w : World} {b : Blueprint} {strict : Bool} {q : Request} {t' : Planning Roster} {k : Source.Class}
  {names : Entries Value} {M : Module} {r : SymbolRef} {base : Nat} {others : List (SymbolRef × Nat)}

theorem fields_of_build (hb : (build (Provider.live w) defaults strict q).runFrom { provider := {} } = (.ok b, t'))
    {f : FieldDef} (hf : f ∈ b.fields) : (∃ base mixins sets, f = Fields.reserved base mixins sets) ∨ f.name ≠ reservedField := by
  obtain ⟨o, u, claims, ho, -, rfl⟩ := build_eq_ok hb
  obtain ⟨copied, hfields, hcopied⟩ := (outline_eq_ok (Provider.keeps_trivial _) trivial ho).fields
  have hf : f ∈ o.fields := hf
  rw [hfields] at hf
  rcases List.mem_cons.1 hf with rfl | hf
  · exact Or.inl ⟨_, _, _, rfl⟩
  · exact Or.inr (hcopied f hf).1

section Passive

variable (hb : (build (Provider.live w) defaults strict q).runFrom { provider := {} } = (.ok b, t'))
  (hk : Source.classOf b = .ok k) (hseed : seed w b = .ok names) (straight : b.IsStraight w)

include hb hk hseed straight

/-- What a field copies is an attribute of a contributor. -/
theorem isPassive_field (through : PassesThrough w b r base others) {line : Source.FieldLine} (hline : line ∈ k.fields) :
    line.IsPassive names k.name := by
  obtain ⟨hfields, -, hname⟩ := Source.classOf_eq_ok hk
  have hname := Source.nodeName_eq_ok hname
  obtain ⟨f, hf, hfline⟩ := Outcome.exists_mem_of_forall₂ (Outcome.mapM_eq_ok.1 hfields).flip hline
  obtain ⟨undotted, plain⟩ := straight.fields f hf
  rw [← Source.fieldLine_name hfline] at undotted plain
  refine ⟨undotted, hname ▸ plain, fun source hsource => ?_⟩
  rcases fields_of_build hb hf with ⟨base, mixins, sets, rfl⟩ | hreserved
  · rw [Source.fieldLine_reserved hfline] at hsource
    cases hsource
  · have hcarried : f ∈ (w.carried? f.name ((r, base) :: others)).toList := by
      rw [← through.fields f.name hreserved]
      exact List.mem_filter.2 ⟨hf, by simp⟩
    obtain ⟨e, he, g, hg, -⟩ := World.carried?_eq_some (Option.mem_toList.1 hcarried)
    obtain ⟨owner, howner, hvalue, -⟩ | ⟨text, -, -, hvalue, -⟩ | ⟨-, hvalue, -⟩ := Source.fieldLine_eq_ok hfline
    · rw [hvalue] at hsource
      cases hsource
      rw [show f.origin = e.1.path from congrArg FieldDef.origin hg] at howner
      rw [hname, (straight.aliases _ _ howner).1]
      exact ⟨e.2, through.get?_seed he hseed howner⟩
    · rw [hvalue] at hsource
      cases hsource
    · rw [hvalue] at hsource
      cases hsource

/-- The default of a parameter is a literal, or read back. -/
theorem isPassive_formal (furnished : w.IsFurnished) (legal : w.IsLegal) (hM : M.names = names) {c : Source.Method}
    (hc : c ∈ k.methods) {g : Source.Formal} (hg : g ∈ (c.within k.name).formals) :
    g.IsPassive w.modules.size (w.withModule M) := by
  obtain ⟨-, hmethods, hname⟩ := Source.classOf_eq_ok hk
  have hname := Source.nodeName_eq_ok hname
  obtain ⟨m, hm, hmc⟩ := Outcome.exists_mem_of_forall₂ (Outcome.mapM_eq_ok.1 hmethods).flip hc
  have hlegal := isLegal_of_build legal (fun e he => absurd he List.not_mem_nil) hb hm
  obtain ⟨-, -, -, hformals, -⟩ := Source.methodOf_eq_ok hmc
  obtain ⟨reference, fs, href, hfs, -, heq⟩ := (Source.formalsOf_eq_ok hlegal).1 hformals
  obtain ⟨C, taken, hbinding, hreferences⟩ := takenFrom_of_build hb hm
  obtain ⟨reference', href', hbound⟩ := hreferences names hseed
  rw [Source.aliasOf_eq_ok, href'] at href
  cases href
  have hg : g ∈ c.formals.map (Source.Formal.within k.name) := hg
  obtain ⟨f, hf, rfl⟩ := List.mem_map.1 hg
  refine Source.Formal.isPassive_of_default fun d hd s more v w' hhome hrun => ?_
  obtain ⟨d, hfd, rfl⟩ := Option.map_eq_some_iff.1 (show f.default.map (Source.Default.within k.name) = some d from hd)
  -- The receiver has no default, so the parameter is one of the signature.
  have hrest : f ∈ fs := by
    rw [heq] at hf
    unfold Source.withReceiver at hf
    split at hf
    · exact hf
    · rcases List.mem_cons.1 hf with rfl | hf
      · cases hfd
      · exact hf
  obtain ⟨p, hp, hpf⟩ := Outcome.exists_mem_of_forall₂ (Outcome.mapM_eq_ok.1 hfs).flip hrest
  obtain ⟨-, -, -, hwrites⟩ := Source.formalOf_eq_ok (hlegal.variadic p.shape (List.mem_map_of_mem hp)) hpf
  rw [hfd] at hwrites
  generalize hdefault : p.default = text? at hwrites
  cases hwrites with
  | literal hliteral =>
    rw [Source.Default.within, World.runFrom_defaultValue_literal] at hrun
    cases hrun
    rfl
  | @readBack text reader hliteral hreader =>
    have hcomputed : m.hasComputedDefaults = true := List.any_eq_true.2 ⟨p, hp, by simp [hdefault, hliteral]⟩
    obtain ⟨reads, -, stored⟩ := straight.defaults m hm hcomputed
    obtain ⟨number, F, q, hslot, hF, readable, -, hfind, -⟩ :=
      World.exists_parameter_of_taken legal taken (stored C hbinding) hp (by rw [hdefault]; exact Option.some_ne_none _)
    rw [hname, Source.Default.readBack_within (privateName_reader hb hreader b.name) (straight.aliases _ _ href').1
      (taken.privateName_eq b.name)] at hrun
    have hmodule : ((w.withModule M).withMore more).modules[s.home]? = some M := by
      rw [hhome]
      exact Array.getElem?_push_size
    have hfurnished : ((w.withModule M).withMore more).IsFurnished :=
      ⟨furnished.classes, fun i f hf => World.function?_withMore (furnished.functions i f hf) more⟩
    exact (World.defaultValue_readBack hfurnished hmodule (hM ▸ get?_seed_of_binding hb hseed reads hreader)
      (hM ▸ hbound) hslot (World.function?_withMore hF more) readable hfind hrun).2

theorem isPassive (furnished : w.IsFurnished) (legal : w.IsLegal) (through : PassesThrough w b r base others)
    (hM : M.names = names) : k.IsPassive w.modules.size names (w.withModule M) := by
  refine ⟨fun line hline => isPassive_field hb hk hseed straight through hline, fun c hc => ?_,
    fun c hc g hg => isPassive_formal hb hk hseed straight furnished legal hM hc hg, ?_⟩
  · obtain ⟨m, -, hname, hplain⟩ := exists_method_of_code hb hk hc
    rw [hplain, hname]
  · rw [Source.lines_eq hk]
    exact straight.marks

end Passive

/-! ## Methods -/

section Relaying

variable {m : MethodDef} {c : Source.Method} {F : Function} {φ : Face} {C id : Nat} {slot : Slot} {callee : Value}
  {shown : List Parameter}

variable (hb : (build (Provider.live w) defaults strict q).runFrom { provider := {} } = (.ok b, t'))
  (hseed : seed w b = .ok names) (straight : b.IsStraight w) (legal : w.IsLegal) (hm : m ∈ b.methods)
  (plain : m.isAdvised = false) (hcore : m.core = .call ⟨m.reference, m.name⟩)
  (hbound : ∀ head, b.aliases.get? m.reference = some head → names.get? head = some (.cls C))
  (hc : Source.methodOf b m = .ok c) (looks : w.Looks C m.name m.signature slot φ callee shown)
  (meant : ∀ p ∈ φ.params, Text.isPrivateName p.name = false ∧ ∀ v ∈ p.default, v.IsSettled)
  (hmakes : c.Makes w.modules.size b.name (w.withModule M) F)

include hb hseed straight legal hm plain hcore hbound hc looks meant hmakes

/-- The function of a method has the parameters of the member that it was planned for, behind its own receiver. -/
theorem bare_params_of_makes (furnished : w.IsFurnished) (hM : M.names = names) :
    F.params.map Parameter.bare = φ.formals := by
  have hlegal := isLegal_of_build legal (fun e he => absurd he List.not_mem_nil) hb hm
  obtain ⟨ref, taken, -⟩ := takenFrom_of_build hb hm
  obtain ⟨reference, fs, href, hfs, hformals, -⟩ := Source.methodOf_passed hc hlegal plain hcore
  obtain ⟨s, params, moduleName, more, ⟨hhome, -⟩, hparams, rfl⟩ := hmakes
  have hshapes := Source.formals_shapes hlegal.variadic (Outcome.mapM_eq_ok.2 hfs)
  have hparams : List.Forall₂ _ (c.formals.map (Source.Formal.within b.name)) params := hparams
  rw [hformals, looks.kind] at hparams
  rw [looks.params] at hfs hshapes hlegal
  have hmeant : ∀ p ∈ shown, Text.isPrivateName p.name = false ∧ ∀ v ∈ p.default, v.IsSettled := fun p hp =>
    meant p.bare (looks.bare ▸ List.mem_map_of_mem hp)
  refine World.bare_params_of_formals ?_ (fun xs hxs => looks.bare ▸ World.map_bare_eq ?_ hmeant hfs hxs ?_) hparams
  · have hkinds := congrArg (List.map ParamShape.kind) hshapes
    simp only [List.map_map] at hkinds
    rw [looks.bare, List.map_map]
    exact hkinds
  · intro p hp hvariadic
    have hnone := hlegal.variadic (w.paramOf p).shape (List.mem_map_of_mem (List.mem_map_of_mem hp)) hvariadic
    rwa [World.shape_paramOf] at hnone
  · intro p hp v reader x hdefault hliteral hreader hrun
    obtain ⟨f, F, rfl, hF, hshown⟩ := looks.stored p hp (by rw [hdefault]; exact Option.some_ne_none _)
    obtain ⟨readable, hfind⟩ := World.find?_of_shown legal hF hshown (by rw [hdefault]; exact Option.some_ne_none _)
    have hcomputed : m.hasComputedDefaults = true := by
      refine List.any_eq_true.2 ⟨w.paramOf p, looks.params ▸ List.mem_map_of_mem hp, ?_⟩
      simp [World.paramOf, hdefault, hliteral]
    rw [Source.Default.readBack_within (privateName_reader hb hreader b.name) (straight.aliases _ _ href).1
      (taken.privateName_eq b.name), looks.kind] at hrun
    have hmodule : ((w.withModule M).withMore more).modules[s.home]? = some M := by
      rw [hhome]
      exact Array.getElem?_push_size
    have hfurnished : ((w.withModule M).withMore more).IsFurnished :=
      ⟨furnished.classes, fun i f hf => World.function?_withMore (furnished.functions i f hf) more⟩
    obtain ⟨rfl, -⟩ := World.defaultValue_readBack hfurnished hmodule
      (hM ▸ get?_seed_of_binding hb hseed (straight.defaults m hm hcomputed).reader hreader) (hM ▸ hbound _ href) looks.found
      (World.function?_withMore hF more) readable hfind hrun
    rw [hdefault]
    rfl

/-- It relays to that member, as long as its module has the names of the plan. -/
theorem relays_of_makes (furnished : w.IsFurnished) (hM : M.names = names) {u : World} {M' : Module}
    (hmodule : u.modules[w.modules.size]? = some M') (hnames : M'.names = names.put b.name (.cls id)) :
    u.Relays F φ C m.name := by
  have hparams := bare_params_of_makes hb hseed straight legal hm plain hcore hbound hc looks meant hmakes furnished hM
  have hlegal := isLegal_of_build legal (fun e he => absurd he List.not_mem_nil) hb hm
  have built := MethodDef.isBuilt_of_build hb hm
  obtain ⟨ref, taken, -⟩ := takenFrom_of_build hb hm
  obtain ⟨reference, fs, href, -, -, hbody⟩ := Source.methodOf_passed hc hlegal plain hcore
  obtain ⟨s, params, moduleName, more, ⟨hhome, howner⟩, -, rfl⟩ := hmakes
  have hasync : c.isAsync = φ.isAsync := (Source.isAsync_of_methodOf hc).trans looks.isAsync
  obtain ⟨hfixed, hne⟩ := built.fresh href
  have hstable := straight.aliases _ _ href
  have hpublic : ∀ p ∈ m.signature.params, Text.privateName b.name p.name = p.name := by
    intro p hp
    rw [looks.params] at hp
    obtain ⟨q, hq, rfl⟩ := List.mem_map.1 hp
    exact Text.privateName_of_public (meant q.bare (looks.bare ▸ List.mem_map_of_mem hq)).1
  have hshapes : m.signature.params.map Param.shape = φ.params.map Parameter.shape := by
    rw [looks.params, looks.bare, Parameter.shape_bare, List.map_map]
    exact List.map_congr_left fun q _ => World.shape_paramOf q
  have hnamed : m.signature.params.map Param.name = φ.params.map Parameter.name := by
    have hnames := congrArg (List.map ParamShape.name) hshapes
    simp only [List.map_map] at hnames
    exact hnames
  -- The receiver is handed on in front, like any other parameter.
  refine ⟨hasync, ⟨rfl, rfl, rfl, rfl⟩, hparams, w.modules.size, M', reference,
    (φ.receiver.map fun p => ⟨p.name, p.kind, none, none⟩) ++ m.signature.params, hmodule, ?_, hstable.2, ?_, ?_, ?_⟩
  · rw [hnames, Entries.get?_put_of_ne _ _ hne]
    exact hbound _ href
  · rw [Face.formals, List.map_append, List.mem_append, not_or, ← hnamed]
    refine ⟨fun hmem => hfixed ?_, built.apart href⟩
    unfold Face.receiver at hmem
    rw [List.map_map] at hmem
    obtain ⟨receiver, hreceiver, rfl⟩ := List.mem_map.1 hmem
    cases hkind : φ.kind <;> rw [hkind] at hreceiver <;> simp_all [Source.receiverOf, Alias.fixedNames]
  · rw [Face.formals, List.map_append, List.map_append, hshapes, List.map_map]
    congr 1
    unfold Face.receiver
    rw [List.map_map, List.map_map]
    rfl
  · have hreceiver : ((Source.receiverOf φ.kind).toList.map Source.Arg.name).map (Source.Arg.within b.name) =
        (φ.receiver.map fun p => ⟨p.name, p.kind, none, none⟩).map Source.forward := by
      unfold Face.receiver
      cases hkind : Source.receiverOf φ.kind with
      | none => rfl
      | some receiver =>
        show [Source.Arg.name (Text.privateName b.name receiver)] = [Source.forward _]
        rw [World.privateName_receiver hkind]
        cases φ.params.any fun p => p.kind == .positionalOnly <;> rfl
    show Body.generated (c.within s.owner).body s.home = _
    rw [howner, hhome, hbody, looks.kind, looks.isAsync, Source.Call.within, List.map_append, hreceiver,
      Source.forwardAll_within hpublic, Source.implementation_within hstable.1 (taken.privateName_eq b.name), List.map_append]
    rfl

end Relaying

/-! ## Fields -/

section Carrying

variable {name : String} {C : Nat} {f : Field} {line : Source.FieldLine} {value : Option Value}

theorem slotOf_eq_value {v : Value} (h : ∀ f, v ≠ .function f) : w.slotOf v = .value v := by
  unfold World.slotOf
  split
  · exact absurd rfl (h _)
  · rfl

/-- What the line of a field gives is the value that the class of the field finds. -/
theorem carries_of_gives (tells : w.Tells C name) (hreserved : name ≠ reservedField)
    (hf : w.declaration? C name = some (.field f)) (straight : b.IsStraight w)
    (hline : Source.fieldLine b (Fields.FieldDef.ofField r f) = .ok line)
    (hbound : ∀ head, b.aliases.get? r.path = some head → names.get? head = some (.cls C))
    (gives : line.Gives (w.withModule M) names b.name value)
    (meant : ∀ v, w.slot? C name = some (.value v) → v.IsSettled ∧ ∀ f, v ≠ .function f) :
    (∃ (v : Value) (hint : Option String), f.default.isSome = true ∧ w.slot? C name = some (.value v) ∧
        value.map w.slotOf = some (.value v) ∧ line.hint.map World.hintOf = hint.map .text ∧ ∀ t ∈ hint, f.hint = some t) ∨
      f.default = none ∧ value = none ∧ ∃ t, f.hint = some t ∧ line.hint.map World.hintOf = some (.text t) := by
  have hquote : ∀ hint : Option String, (hint.map Text.Quoted.quote).map World.hintOf = hint.map .text := by
    intro hint
    cases hint with
    | none => rfl
    | some t => rw [Option.map_some, Option.map_some, World.hintOf_quote, Option.map_some]
  have hlineName : line.name = f.name := Source.fieldLine_name hline
  obtain ⟨hname, ⟨v, hslot, hdefault, -⟩ | ⟨hdefault, hdescriptor, hhint⟩⟩ :=
    tells.field hreserved hf
  · obtain ⟨settled, hnot⟩ := meant v hslot
    refine Or.inl ⟨v, ?_⟩
    obtain ⟨owner, howner, hvalue, hhints⟩ | ⟨text, htext, hliteral, hvalue, -, hhints⟩ | ⟨hnone, -⟩ := Source.fieldLine_eq_ok hline
    · have hv : value = some v := by
        cases gives with
        | nothing h => cases hvalue.symm.trans h
        | literal h => cases hvalue.symm.trans h
        | copied h bound hattribute =>
          cases hvalue.symm.trans h
          rw [(straight.aliases _ _ howner).1, hbound _ howner] at bound
          cases bound
          rw [hlineName, hname] at hattribute
          have hfound : (w.withModule M).slot? C name = some (.value v) := hslot
          rw [World.classAttribute?, hfound] at hattribute
          cases hattribute
          rfl
      rw [hv, Option.map_some, slotOf_eq_value hnot]
      obtain ⟨-, hnone⟩ | ⟨-, hhints, -⟩ := hhints
      · exact ⟨none, by rw [hdefault]; rfl, hslot, rfl, by rw [hnone]; rfl, by simp⟩
      · exact ⟨f.hint, by rw [hdefault]; rfl, hslot, rfl, by rw [hhints]; exact hquote f.hint, fun _ h => h⟩
    · have hv : value = some v := by
        cases gives with
        | nothing h => cases hvalue.symm.trans h
        | literal h =>
          cases hvalue.symm.trans h
          have htext : f.default = some text := htext
          obtain rfl := Option.some.inj (hdefault.symm.trans htext)
          rw [(settled w hliteral).2]
        | copied h => cases hvalue.symm.trans h
      rw [hv, Option.map_some, slotOf_eq_value hnot]
      exact ⟨f.hint, by rw [hdefault]; rfl, hslot, rfl, by rw [hhints]; exact hquote f.hint, fun _ h => h⟩
    · cases hdefault.symm.trans hnone
  · obtain ⟨t, ht⟩ := Option.isSome_iff_exists.1 hhint
    refine Or.inr ⟨hdefault, ?_⟩
    obtain ⟨owner, -, -, ⟨hdescribed, -⟩ | ⟨-, -, text, htext, -⟩⟩ | ⟨text, htext, -⟩ | ⟨-, hvalue, hhints⟩ :=
      Source.fieldLine_eq_ok hline
    · cases hdescriptor.symm.trans hdescribed
    · cases hdefault.symm.trans htext
    · cases hdefault.symm.trans htext
    · refine ⟨?_, t, ht, ?_⟩
      · cases gives with
        | nothing => rfl
        | literal h => cases hvalue.symm.trans h
        | copied h => cases hvalue.symm.trans h
      · rw [hhints]
        show some (World.hintOf (((f.hint).map Text.Quoted.quote).getD "None")) = _
        rw [ht, Option.map_some, Option.getD_some, World.hintOf_quote]

end Carrying

/-! ## The composite -/

/-- The first base in the code of a class is that of its header. -/
theorem bases_of_classOf (hk : Source.classOf b = .ok k) :
    ∃ head rest, b.aliases.get? b.header.base = some head ∧ k.bases = head :: rest := by
  obtain ⟨bases, hbases, h⟩ := Outcome.bind_eq_ok.1 hk
  obtain ⟨fields, -, h⟩ := Outcome.bind_eq_ok.1 h
  obtain ⟨methods, -, h⟩ := Outcome.bind_eq_ok.1 h
  obtain ⟨name, -, h⟩ := Outcome.bind_eq_ok.1 h
  cases h
  obtain ⟨head, rest, hhead, -, rfl⟩ := List.forall₂_cons_left_iff.1 (Outcome.mapM_eq_ok.1 hbases)
  obtain ⟨path, hpath, hname⟩ := Outcome.bind_eq_ok.1 hhead
  rw [Source.nodeName_eq_ok hname]
  exact ⟨path, rest, Source.aliasOf_eq_ok.1 hpath, rfl⟩

/-- A class that is defined extends its first base. -/
theorem extends_of_defines {S : String → Prop} {id : Nat} {w' : World} {head : String} {rest : List String}
    (h : World.Defines S w.modules.size k (w.withModule M) id w') (furnished : w.IsFurnished)
    (hbase : base < w.classes.size) (hbases : k.bases = head :: rest) (hbound : M.names.get? head = some (.cls base))
    (hev : Evolves World.Everything w w') : w'.Extends id base := by
  refine ⟨?_, h.exists_lineage ⟨furnished.classes, furnished.functions⟩⟩
  obtain ⟨bases, s, start, made, order, derives, body, number, known, linear, keeps, evolves⟩ := h
  rw [hbases, List.mapM_cons] at derives
  obtain ⟨base', u, hfirst, derives⟩ := Act.bind_eq_ok.1 derives
  obtain ⟨others, v, hothers, hdone⟩ := Act.bind_eq_ok.1 derives
  cases hdone
  obtain ⟨x, y, hglobal, hfirst⟩ := Act.bind_eq_ok.1 hfirst
  obtain ⟨rfl, rfl⟩ := World.globalIn_eq_ok (m := M) Array.getElem?_push_size hbound hglobal
  cases hfirst
  obtain ⟨ancestors, rfl, distinct, -, -, hkept⟩ := Linearization.order?_eq_some linear
  have hmade : Evolves World.Everything (w.withModule M) made :=
    (World.evolves_derives (c := { k with bases := rest }) (World.tame_everything _) hothers).trans
      (World.evolves_leaves (World.tame_everything _) (fun f _ => World.setsIn_everything f) body)
  have hsame : w'.order base = made.order base :=
    (hev.order_eq hbase).trans (hmade.order_eq (w := w.withModule M) hbase).symm
  refine ⟨ancestors, keeps.order, distinct, hsame ▸ hkept base ?_⟩
  show base ∈ World.Draft.parents _
  unfold World.Draft.parents
  exact List.mem_cons_self

/-- Of a name, the code of a class has the lines of what the plan has of it. -/
theorem filter_of_classOf (hk : Source.classOf b = .ok k) (name : String) :
    List.Forall₂ (fun m c => Source.methodOf b m = .ok c) (b.methods.filter fun m => m.name == name)
        (k.methods.filter fun c => c.name == name) ∧
      List.Forall₂ (fun f line => Source.fieldLine b f = .ok line) (b.fields.filter fun f => f.name == name)
        (k.fields.filter fun line => line.name == name) := by
  obtain ⟨hfields, hmethods, -⟩ := Source.classOf_eq_ok hk
  refine ⟨List.rel_filter (fun m c hc => ?_) (Outcome.mapM_eq_ok.1 hmethods),
    List.rel_filter (fun f line hline => ?_) (Outcome.mapM_eq_ok.1 hfields)⟩
  · show (m.name == name) = true ↔ (c.name == name) = true
    rw [(Source.methodOf_eq_ok hc).1]
  · show (f.name == name) = true ↔ (line.name == name) = true
    rw [Source.fieldLine_name hline]

section Made

variable {name : String} {C id : Nat} {v : World}
  (hb : (build (Provider.live w) defaults strict q).runFrom { provider := {} } = (.ok b, t'))
  (hk : Source.classOf b = .ok k) (hseed : seed w b = .ok names) (straight : b.IsStraight w)
  (through : PassesThrough w b r base others) (made : Made name w.modules.size names k (w.withModule M) id v)
  (hname : name ∉ constructorNames)

theorem not_prepared (plain : name ∉ constructorNames) : ¬World.Prepared name := by
  rintro (rfl | rfl) <;> exact plain (by decide)

include hk through made

/-- A name that nothing is passed through of is not in the class. -/
theorem nothing_of_made (nothing : ∀ m ∈ others.map Prod.snd, w.offer? name .mixin m = none)
    (hnone : w.firstPlain? name (base :: others.map Prod.snd) = none) (hreserved : name ≠ reservedField) :
    (v.cls id).slots.get? name = none ∧ (v.cls id).hints.get? name = none := by
  obtain ⟨hmethods, hfields⟩ := filter_of_classOf hk name
  rw [through.methods_eq_nil nothing] at hmethods
  rw [through.fields_eq_nil hnone hreserved] at hfields
  exact made.nothing (List.forall₂_nil_left_iff.1 hmethods) (List.forall₂_nil_left_iff.1 hfields)

include hseed straight

/-- A field that is passed through is in the class. -/
theorem field_of_made (nothing : ∀ m ∈ others.map Prod.snd, w.offer? name .mixin m = none)
    (hC : w.firstPlain? name (base :: others.map Prod.snd) = some C) (hreserved : name ≠ reservedField)
    (tells : w.Tells C name) (meant : ∀ v, w.slot? C name = some (.value v) → v.IsSettled ∧ ∀ f, v ≠ .function f) :
    ∃ f, w.plainField? name C = some f ∧
      ((∃ (x : Value) (hint : Option String), f.default.isSome = true ∧ w.slot? C name = some (.value x) ∧
          (v.cls id).slots.get? name = some (.value x) ∧ (v.cls id).hints.get? name = hint.map .text ∧
          ∀ t ∈ hint, f.hint = some t) ∨
        f.default = none ∧ (v.cls id).slots.get? name = none ∧ ∃ t, f.hint = some t ∧
          (v.cls id).hints.get? name = some (.text t)) := by
  obtain ⟨hmethods, hfields⟩ := filter_of_classOf hk name
  obtain ⟨e, he, f, rfl, hf, hfilter⟩ := through.exists_field hC hreserved
  rw [through.methods_eq_nil nothing] at hmethods
  rw [hfilter] at hfields
  obtain ⟨line, rest, hline, hrest, hlines⟩ := List.forall₂_cons_left_iff.1 hfields
  obtain rfl := List.forall₂_nil_left_iff.1 hrest
  obtain ⟨value, gives, hslot, hhint⟩ :=
    made.field (List.forall₂_nil_left_iff.1 hmethods) line hlines
  rw [Source.nodeName_eq_ok (Source.classOf_eq_ok hk).2.2] at gives
  refine ⟨f, hf, ?_⟩
  obtain ⟨x, hint, hdefault, hfound, hvalue, hhints, hsub⟩ | ⟨hdefault, rfl, t, ht, hhints⟩ :=
    carries_of_gives tells hreserved (World.declaration?_of_plainField? hf).1 straight hline
      (fun head hhead => through.get?_seed he hseed hhead) gives meant
  · refine Or.inl ⟨x, hint, hdefault, hfound, ?_, hhint.trans hhints, hsub⟩
    have hvalue : value.map (w.withModule M).slotOf = some (.value x) := hvalue
    rw [hslot, hvalue]
    rfl
  · exact Or.inr ⟨hdefault, hslot, t, ht, hhint.trans hhints⟩

include hb hname

/-- A member that is passed through is in the class as a method that relays to it. -/
theorem method_of_made (furnished : w.IsFurnished) (legal : w.IsLegal) (hM : M.names = names)
    (offered : ∃ m ∈ others.map Prod.snd, w.offer? name .mixin m ≠ none)
    (hC : w.firstOffer? name .base (base :: others.map Prod.snd) = some C) (tells : w.Tells C name)
    (meant : ∀ slot φ, w.slot? C name = some slot → w.face? slot = some φ → ∀ p ∈ φ.params,
      Text.isPrivateName p.name = false ∧ ∀ v ∈ p.default, v.IsSettled) :
    ∃ slot φ c g G, w.slot? C name = some slot ∧ w.face? slot = some φ ∧ slot.callee? = some (φ.kind, c) ∧
      (v.cls id).slots.get? name = some (.routine φ.kind g) ∧ v.function? g = some G ∧
      ∀ (u : World) (M' : Module), u.modules[w.modules.size]? = some M' → M'.names = names.put b.name (.cls id) →
        u.Relays G φ C name := by
  obtain ⟨hmethods, -⟩ := filter_of_classOf hk name
  obtain ⟨e, he, s, rfl, hdeclared, hfilter⟩ := through.exists_method offered hC
  have hm : passing b.name name e.1 s ∈ b.methods.filter fun m => m.name == name := by
    rw [hfilter]
    exact List.mem_singleton_self _
  have hm := (List.mem_filter.1 hm).1
  rw [hfilter] at hmethods
  obtain ⟨c, rest, hc, hrest, hcs⟩ := List.forall₂_cons_left_iff.1 hmethods
  obtain rfl := List.forall₂_nil_left_iff.1 hrest
  obtain ⟨f, F, hslot, hF, hmakes⟩ := made.method c hcs
  rw [Source.nodeName_eq_ok (Source.classOf_eq_ok hk).2.2] at hmakes
  obtain ⟨slot, φ, callee, shown, looks⟩ := tells.looks hdeclared
  refine ⟨slot, φ, callee, f, F, looks.found, looks.face, looks.callee, ?_, hF, fun u M' hmodule hnames => ?_⟩
  · rw [hslot, World.impliedKind_eq_self hname, (Source.methodOf_eq_ok hc).2.1]
    exact congrArg (fun kind => some (Slot.routine kind f)) looks.kind
  · exact relays_of_makes hb hseed straight legal hm rfl rfl (fun head hhead => through.get?_seed he hseed hhead) hc looks
      (meant slot φ looks.found looks.face) hmakes furnished hM hmodule hnames

end Made

theorem isLegal_of_evolves {S : String → Prop} {u : World} (h : Evolves S w u) (legal : u.IsLegal) : w.IsLegal := by
  obtain ⟨more, hmore, -⟩ := h.functions
  exact fun f hf => legal f (hmore ▸ Array.mem_append_left _ hf)

/-- What a mix comes to: a plan, the code of it and the names that this is run with, and the class that it makes, which is
bound in its module in the end. -/
structure Yields (w : World) (name : String) (base : Nat) (others : List (SymbolRef × Nat)) (id : Nat) (w' : World)
    (b : Blueprint) (r : SymbolRef) (k : Source.Class) (names : Entries Value) (M : Module) (v : World) : Prop where
  built : ∃ strict q t', (build (Provider.live w) defaults strict q).runFrom { provider := {} } = (.ok b, t')
  straight : b.IsStraight w
  through : PassesThrough w b r base others
  code : Source.classOf b = .ok k
  seeded : seed w b = .ok names
  named : M.names = names
  evolves : Evolves World.Everything w v
  made : Made name w.modules.size names k (w.withModule M) id v
  bound : w' = { v with modules := w.modules.push { M with names := names.put b.name (.cls id) } }

theorem Mixes.yields {p p' : Session} {id : Nat} {mixins : List Nat} {name : String}
    (mixes : p.Mixes name base mixins id p') (plain : name ∉ constructorNames)
    (legal : ∀ v, Evolves World.Everything p.world v → Evolves World.Everything v p'.world → p.world.IsLegal) :
    ∃ b r others k names M v, others.map Prod.snd = mixins ∧
      Yields p.world name base others id p'.world b r k names M v := by
  obtain ⟨settings, binds, q, passes, hmix, hstraight⟩ := mixes.mixed
  rw [runFrom_mix] at hmix
  generalize hplan : (plan .live settings q).runFrom p = res at hmix hstraight
  obtain ⟨outcome, p₁⟩ := res
  cases outcome with
  | error e => cases hmix
  | ok b =>
    obtain ⟨hworld, t', hb⟩ := build_of_plan hplan
    have hrun := activation_of_activate hmix
    rw [hworld] at hrun
    obtain ⟨k, names, v, hk, hseed, hdefined, hw'⟩ := defineClass_of_activation hrun
    obtain ⟨r, others, hmixins, through⟩ := passesThrough_of_build passes hb
    generalize hM : (inProcess settings b names).start = M at hdefined hw'
    have hnames : M.names = names := by rw [← hM]; rfl
    have hall : Evolves World.Everything p.world v := (World.evolves_withModule _ M).trans
      ((World.faithful_defineClass _ k).evolves (World.tame_everything _) hdefined)
    have hlegal := legal v hall (by rw [hw']; exact Evolves.of_eq rfl rfl rfl)
    refine ⟨b, r, others, k, names, M, v, hmixins, ⟨_, _, _, hb⟩, hstraight b p₁ rfl, through, hk, hseed, hnames, hall, ?_, hw'⟩
    have passive := isPassive hb hk hseed (hstraight b p₁ rfl) mixes.furnished hlegal through hnames
    have calm := mixes.calm
    rw [hw'] at calm
    rw [← hnames] at passive ⊢
    exact World.made_of_defineClass passive Array.getElem?_push_size (not_prepared plain) calm hdefined

/-- What is mixed of live classes composes them, in all worlds that come of it. -/
theorem Mixes.composes {p p' : Session} {id : Nat} {mixins : List Nat} {name : String}
    (mixes : p.Mixes name base mixins id p') {u : World} (lasts : p'.world.Lasts name u) (legal : u.IsLegal)
    (plain : name ∉ constructorNames) (hname : name ≠ reservedField) (fits : ∀ C ∈ base :: mixins, u.Fits name C) : u.Composes name base mixins id := by
  have hlegal : ∀ v, Evolves World.Everything p.world v → Evolves World.Everything v p'.world → p.world.IsLegal :=
    fun v h h' => isLegal_of_evolves ((h.trans h').trans (lasts.evolves.mono fun _ _ => trivial)) legal
  obtain ⟨b, r, others, k, names, M, v, rfl, ⟨strict, q, t', hb⟩, straight, through, hk, hseed, hnames, hall, made, hw'⟩ :=
    mixes.yields plain hlegal
  -- The class and its functions are still there in the end, and all that was there before.
  have hbound : ∀ {S}, Evolves S v p'.world := by
    intro S
    rw [hw']
    exact Evolves.of_eq rfl rfl rfl
  have hlegal := hlegal v hall hbound
  have hlast : Evolves (· ≠ name) v u := hbound.trans lasts.evolves
  have hev : Evolves (· ≠ name) p.world u :=
    (World.evolves_withModule _ M).trans (made.evolves.trans hlast)
  have hid : id < v.classes.size := by
    obtain ⟨-, -, -, -, -, -, -, -, known, -⟩ := made.defines
    exact known
  have hkept := hlast.keeps id hid
  have hgist : ∀ C ∈ base :: others.map Prod.snd, u.gist? C name = p.world.gist? C name := fun C hC =>
    hev.gist?_eq mixes.closed mixes.filed (mixes.known C hC) (by simp)
  have hfound : ∀ C ∈ base :: others.map Prod.snd, u.slot? C name = p.world.slot? C name := fun C hC =>
    hev.found_eq mixes.closed (mixes.known C hC) (by simp)
  have htells : ∀ C ∈ base :: others.map Prod.snd, p.world.Tells C name := fun C hC =>
    (hev.tells_iff mixes.closed mixes.filed (mixes.known C hC) (by simp)).1 (fits C hC).tells
  have hnone : (∀ m ∈ others.map Prod.snd, u.offer? name .mixin m = none) →
      ∀ m ∈ others.map Prod.snd, p.world.offer? name .mixin m = none := fun nothing m hm =>
    (World.offer?_eq_none_congr (hgist m (List.mem_cons_of_mem _ hm))).1 (nothing m hm)
  refine ⟨?_, fun offered C hC => ?_, fun nothing C hC => ?_, fun nothing hC => ?_⟩
  · obtain ⟨head, rest, hhead, hbases⟩ := bases_of_classOf hk
    rw [through.extended] at hhead
    have hbase := mixes.known base List.mem_cons_self
    exact hlast.extends hid (Nat.lt_of_lt_of_le hbase hall.classes) (extends_of_defines made.defines mixes.furnished hbase
      hbases (hnames ▸ through.get?_seed List.mem_cons_self hseed hhead) hall)
  · have free : nameVisibility name [] = .free := by
      obtain ⟨m, -, hoffer⟩ := offered
      by_contra hne
      exact hoffer (World.offer?_eq_none_of_not_free hne)
    have hmem := World.mem_of_firstOffer hC
    rw [World.firstOffer?_congr free hgist] at hC
    have offered' : ∃ m ∈ others.map Prod.snd, p.world.offer? name .mixin m ≠ none := by
      obtain ⟨m, hm, hoffer⟩ := offered
      exact ⟨m, hm, mt (World.offer?_eq_none_congr (hgist m (List.mem_cons_of_mem _ hm))).2 hoffer⟩
    obtain ⟨slot, φ, c, g, G, hslot, hface, hc, hown, hG, relays⟩ := method_of_made hb hk hseed straight through made
      plain mixes.furnished hlegal hnames offered' hC (htells C hmem) fun slot φ hslot hface =>
        (fits C hmem).params slot φ ((hfound C hmem).trans hslot) (hev.face? hface)
    refine ⟨slot, φ, c, g, G, (hfound C hmem).trans hslot, hev.face? hface, hc, ?_, hlast.function? hG,
      relays u { M with names := names.put b.name (.cls id) } ?_ rfl⟩
    · rw [hkept.slots name (by simp), hown]
    · rw [lasts.modules _ (by rw [hw']; simp), hw']
      exact Array.getElem?_push_size
  · have hmem := List.mem_of_find?_eq_some hC
    rw [World.firstPlain?_congr hgist] at hC
    obtain ⟨f, hf, hown⟩ := field_of_made hk hseed straight through made (hnone nothing) hC hname (htells C hmem)
      fun x hx => (fits C hmem).value x ((hfound C hmem).trans hx)
    obtain ⟨f', hf', hdefault', hhint'⟩ := World.plainField?_of_gist (hgist C hmem) hf
    refine ⟨f', hf', ?_⟩
    rw [hkept.slots name (by simp), hkept.hints, hdefault', hhint', hfound C hmem]
    obtain hvalue | ⟨hdefault, hslot, t, ht, hhints⟩ := hown
    · exact Or.inl hvalue
    · refine Or.inr ⟨?_, hslot, t, ht, hhints⟩
      rw [← Option.not_isSome_iff_eq_none, hdefault', hdefault]
      simp
  · rw [World.firstPlain?_congr hgist] at hC
    obtain ⟨hslot, hhint⟩ := nothing_of_made hk through made (hnone nothing) hC hname
    rw [World.mentions_eq_false_iff, hkept.slots name (by simp), hkept.hints]
    exact ⟨hslot, hhint⟩

end Session

end Amalgam
