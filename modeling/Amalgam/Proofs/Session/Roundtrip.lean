import Amalgam.Proofs.Session.Origins
import Amalgam.Proofs.Session.Steps
import Amalgam.Proofs.Source.Hygiene
import Amalgam.Proofs.World.Recorded
import Amalgam.Proofs.World.Retelling

/-!
# Signatures through code and back

The signature of a generated method is written down as code, the code is run, and the manifest of the class that it
defines is read. What comes back is the signature retold (`Session.mem_members_iff_retold`): the names of parameters
are those that they have inside the class, and defaults are the texts of their values. `Session.signature_kept_iff`
says when that is the signature that was planned.
-/

namespace Amalgam

open World (Tame Evolves Defines IsFurnished IsClosed)

/-- The names that may be set without a method of some name, or what classes are written as, being lost. -/
def World.Sparing (name other : String) : Prop := other ≠ name ∧ other ≠ "__module__" ∧ other ≠ "__qualname__"

instance (name other : String) : Decidable (World.Sparing name other) := inferInstanceAs (Decidable (_ ∧ _))

/-- The defaults of a method can be read back from its reference: the reader is the library's, the name of the reference is
not private to the composite, and the class of the reference finds the member that its manifest has. -/
structure MethodDef.ReadsBack (w : World) (b : Blueprint) (m : MethodDef) : Prop where
  reader : b.bindings.get? SymbolRef.parameterDefault.path = some (.function World.parameterDefaultId)
  named : ∀ name ∈ b.aliases.get? m.reference, Text.privateName b.name name = name
  stored : ∀ id, b.bindings.get? m.reference = some (.cls id) → w.StoresMethods id m.name

/-- Nothing in a world or in a blueprint stands in the way of a method: no code sets its name on a class, or what a class is
written as; no field is set on another object; and where the method has a mark, the marks are what they seem. -/
structure MethodDef.Unhindered (w : World) (b : Blueprint) (m : MethodDef) : Prop where
  tame : Tame (World.Sparing m.name) w
  undotted : ∀ f ∈ b.fields, '.' ∉ f.name.toList
  marks : m.signature.kind ≠ .ofInstance → b.lines.Pairwise Source.Line.Leaves
  defaults : m.hasComputedDefaults = true → m.ReadsBack w b

/-- Two signatures say the same of all but the marks of abstract and final members. -/
def Signature.Matches (s s' : Signature) : Prop :=
  s.name = s'.name ∧ s.kind = s'.kind ∧ s.visibility = s'.visibility ∧ s.isAsync = s'.isAsync ∧ s.params = s'.params

/-- What is retold of a signature says the same if it does so of the visibility and of each parameter. -/
theorem Signature.retold_matches_iff {w : World} {id : Nat} {owner : String} {s : Signature} :
    (s.retold w id owner).Matches s ↔ (∀ p ∈ s.params, Text.privateName owner p.name = p.name ∧
      p.default.map w.respell = p.default) ∧ nameVisibility s.name (w.ownersOf id) = s.visibility := by
  have hparam : ∀ p : Param, p.retold w owner = p ↔
      Text.privateName owner p.name = p.name ∧ p.default.map w.respell = p.default := by
    intro p
    constructor
    · intro h
      exact ⟨congrArg Param.name h, congrArg Param.default h⟩
    · rintro ⟨hname, hdefault⟩
      unfold Param.retold
      rw [hname, hdefault]
  have hparams : s.params.map (Param.retold w owner) = s.params ↔ ∀ p ∈ s.params, p.retold w owner = p := by
    constructor
    · intro h p hp
      exact List.map_inj_left.1 (h.trans (List.map_id s.params).symm) p hp
    · intro h
      exact (List.map_congr_left h).trans (List.map_id s.params)
  simp only [hparam] at hparams
  unfold Matches
  rw [← hparams]
  constructor
  · rintro ⟨-, -, hvisibility, -, hsame⟩
    exact ⟨hsame, hvisibility⟩
  · rintro ⟨hsame, hvisibility⟩
    exact ⟨rfl, rfl, hvisibility, rfl, hsame⟩

namespace World

variable {w u u' w' : World} {s : Scope} {m : MethodDef} {id : Nat} {p : Param}

/-- A default that is no literal comes from a parameter of the function that the class finds. -/
theorem exists_parameter_of_taken (legal : w.IsLegal) (taken : m.TakenFrom w id) (stores : w.StoresMethods id m.name)
    (hp : p ∈ m.signature.params) (hdefault : p.default ≠ none) :
    ∃ f F q, w.slot? id m.name = some (.routine m.signature.kind f) ∧ w.function? f = some F ∧ F.isReadable = true ∧
      q ∈ F.params ∧ F.params.find? (·.name == p.name) = some q ∧ p = w.paramOf q := by
  obtain ⟨kind, f, F, hslot, hF, hsignature⟩ := slot?_of_declaration? stores taken.declared
  have hkind : m.signature.kind = kind := by rw [hsignature]; rfl
  have hparams : m.signature.params = w.paramsOf kind F := by rw [hsignature]; rfl
  rw [hparams] at hp
  have hreadable : F.isReadable = true := by
    by_contra hunreadable
    rw [paramsOf, if_pos (by simpa using hunreadable)] at hp
    simp only [unknownParams, List.mem_cons, List.not_mem_nil, or_false] at hp
    rcases hp with rfl | rfl <;> exact hdefault rfl
  rw [paramsOf, if_neg (by simp [hreadable])] at hp
  obtain ⟨q, hq, rfl⟩ := List.mem_map.1 hp
  have hmem : q ∈ F.params := by
    split at hq
    · rename_i first rest hfirst
      split at hq
      · exact hfirst ▸ List.mem_cons_of_mem _ hq
      · exact hq
    · cases hq
  refine ⟨f, F, q, hkind ▸ hslot, hF, hreadable, hmem, ?_, rfl⟩
  exact Parameter.find?_eq_some (legal F (Array.mem_of_getElem? hF)) hmem

/-- What is read back is written in the end as it was at the start. -/
theorem spell_readBack {M : Module} {owner reader reference text : String} {v : Value} (legal : w.IsLegal)
    (closed : w.IsClosed) (furnished : w.IsFurnished) (taken : m.TakenFrom w id) (stores : w.StoresMethods id m.name)
    (hp : p ∈ m.signature.params) (hdefault : p.default = some text) (hu : Evolves (Sparing m.name) w u)
    (hw' : Evolves (Sparing m.name) w w') (hM : u.modules[s.home]? = some M)
    (hreader : M.names.get? reader = some (.function parameterDefaultId))
    (hreference : M.names.get? reference = some (.cls id)) (stable : Text.privateName owner reader = reader)
    (stable' : Text.privateName owner reference = reference)
    (hrun : (s.defaultValue ((Source.Default.readBack reader
      (Source.implementation reference m.signature.kind m.name) p.name).within owner)).runFrom u = (.ok v, u')) :
    w'.spell v = text := by
  obtain ⟨f, F, q, hslot, hF, readable, hq, hfind, heq⟩ :=
    exists_parameter_of_taken legal taken stores hp (by rw [hdefault]; exact Option.some_ne_none _)
  rw [Source.Default.readBack_within stable stable' (taken.privateName_eq owner)] at hrun
  obtain ⟨hv, -⟩ := defaultValue_readBack (furnished.evolves hu) hM hreader hreference
    (hu.slot?_eq closed (fun h => h.1 rfl) hslot) (hu.function? hF) readable hfind hrun
  rw [heq] at hdefault
  obtain ⟨v₀, hv₀, rfl⟩ := Option.map_eq_some_iff.1 hdefault
  rw [hv₀] at hv
  subst hv
  refine hw'.spell_eq (fun h => h.2.1 rfl) (fun h => h.2.2 rfl) ?_
  exact closed.defaults F (Array.mem_of_getElem? hF) q hq _ hv₀

end World

/-! ## From the plan to the class -/

namespace Source

variable {b : Blueprint} {k : Class} {m : MethodDef}

theorem setsIn_of_undotted {S : String → Prop} {f : FieldLine} (h : '.' ∉ f.name.toList) : f.SetsIn S := by
  have hrest : f.name.toList.dropWhile (· != '.') = [] := by
    refine List.dropWhile_eq_nil_iff.2 fun c hc => ?_
    rw [bne_iff_ne]
    rintro rfl
    exact h hc
  intro owner name hlast
  rw [Text.splitOnChar_eq, hrest] at hlast
  cases hlast

theorem setsIn_of_classOf {S : String → Prop} (hk : classOf b = .ok k) (undotted : ∀ f ∈ b.fields, '.' ∉ f.name.toList) :
    ∀ f ∈ k.fields, f.SetsIn S := by
  obtain ⟨hfields, -, -⟩ := classOf_eq_ok hk
  intro line hline
  obtain ⟨f, hf, hfline⟩ := Outcome.exists_mem_of_forall₂ (Outcome.mapM_eq_ok.1 hfields).flip hline
  refine setsIn_of_undotted ?_
  rw [fieldLine_name hfline]
  exact undotted f hf

/-- The code of a method stands in its class, and no later method has its name. -/
theorem exists_method_of_classOf (hk : classOf b = .ok k) (distinct : (b.methods.map MethodDef.name).Nodup)
    (hm : m ∈ b.methods) : k.name = b.name ∧ ∃ done c rest, k.methods = done ++ c :: rest ∧ methodOf b m = .ok c ∧
      ∀ c' ∈ rest, ∃ m' ∈ b.methods, c'.name = m'.name ∧ m'.name ≠ m.name := by
  obtain ⟨-, hmethods, hname⟩ := classOf_eq_ok hk
  obtain ⟨done, c, rest, heq, hc, hothers⟩ := Outcome.exists_split_of_mapM hmethods distinct hm
  refine ⟨nodeName_eq_ok hname, done, c, rest, heq, hc, fun c' hc' => ?_⟩
  obtain ⟨m', hm', hm'c, hne⟩ := hothers c' (List.mem_append_right _ hc')
  exact ⟨m', hm', (methodOf_eq_ok hm'c).1, hne⟩

/-- The line of a field stands in its class, among lines of other names. -/
theorem exists_line_of_classOf {f : FieldDef} (hk : classOf b = .ok k) (distinct : (b.fields.map FieldDef.name).Nodup)
    (hf : f ∈ b.fields) : ∃ done line rest, k.fields = done ++ line :: rest ∧ fieldLine b f = .ok line ∧
      ∀ line' ∈ done ++ rest, ∃ f' ∈ b.fields, line'.name = f'.name ∧ f'.name ≠ f.name := by
  obtain ⟨hfields, -, -⟩ := classOf_eq_ok hk
  obtain ⟨done, line, rest, heq, hline, hothers⟩ := Outcome.exists_split_of_mapM hfields distinct hf
  refine ⟨done, line, rest, heq, hline, fun line' hline' => ?_⟩
  obtain ⟨f', hf', h, hne⟩ := hothers line' hline'
  exact ⟨f', hf', fieldLine_name h, hne⟩

end Source

namespace Session

variable {p p' : Session} {settings : Settings} {binds : Bool} {q : Request} {b : Blueprint} {id : Nat} {w w' : World}
  {S : String → Prop}

/-- The code of a method has the name of one that was planned, which is private to no class. -/
theorem exists_method_of_code {strict : Bool} {t' : Planning Roster} {k : Source.Class} {c : Source.Method}
    (hb : (Blueprint.build (Provider.live w) defaults strict q).runFrom { provider := {} } = (.ok b, t'))
    (hk : Source.classOf b = .ok k) (hc : c ∈ k.methods) :
    ∃ m ∈ b.methods, c.name = m.name ∧ ∀ owner, Text.privateName owner c.name = m.name := by
  obtain ⟨-, hmethods, -⟩ := Source.classOf_eq_ok hk
  obtain ⟨m, hm, hmc⟩ := Outcome.exists_mem_of_forall₂ (Outcome.mapM_eq_ok.1 hmethods).flip hc
  obtain ⟨_, taken, -⟩ := takenFrom_of_build hb hm
  have hname := (Source.methodOf_eq_ok hmc).1
  exact ⟨m, hm, hname, fun owner => by rw [hname, taken.privateName_eq]⟩

theorem build_of_plan (h : (plan .live settings q).runFrom p = (.ok b, p')) : p'.world = p.world ∧ ∃ t',
    (Blueprint.build (Provider.live p.world) defaults settings.isStrict q).runFrom { provider := {} } = (.ok b, t') := by
  rw [runFrom_plan] at h
  unfold planned at h
  dsimp only at h
  generalize (Blueprint.build (Provider.live p.world) defaults settings.isStrict q).runFrom { provider := {} } = r at h
  obtain ⟨outcome, t'⟩ := r
  cases h
  exact ⟨rfl, t', rfl⟩

theorem activation_of_activate (h : (activate settings binds b).runFrom p = (.ok id, p')) :
    activation settings b p.world = (.ok id, p'.world) := by
  by_cases free : p.composites.has b.name = false
  · rw [runFrom_activate settings binds b p free] at h
    generalize activation settings b p.world = r at h
    obtain ⟨outcome, w⟩ := r
    cases outcome <;> cases h
    rfl
  · rw [runFrom_activate_taken settings binds b p (by simpa using free)] at h
    cases h

/-- An activation runs the code of a blueprint with its symbols. -/
theorem execute_of_activation (h : activation settings b w = (.ok id, w')) : ∃ k names, Source.classOf b = .ok k ∧
    seed w b = .ok names ∧
    (World.execute (inProcess settings b names) { isArtifact := false, cls := k }).runFrom w = (.ok id, w') := by
  unfold activation at h
  cases hcode : Source.compile false b with
  | error e =>
    rw [hcode] at h
    cases h
  | ok code =>
    rw [hcode] at h
    dsimp only at h
    cases hseed : seed w b with
    | error e =>
      rw [hseed] at h
      cases h
    | ok names =>
      rw [hseed] at h
      have hk := Source.classOf_of_compile hcode
      rw [Source.compile_inProcess hk] at hcode
      rw [← Except.ok.inj hcode] at h
      exact ⟨code.cls, names, hk, rfl, h⟩

/-- It does so in a module of the symbols, where it binds the class. -/
theorem defineClass_of_activation (h : activation settings b w = (.ok id, w')) : ∃ k names u, Source.classOf b = .ok k ∧
    seed w b = .ok names ∧
    (World.defineClass w.modules.size k).runFrom (w.withModule (inProcess settings b names).start) = (.ok id, u) ∧
    w' = { u with modules := w.modules.push { (inProcess settings b names).start with
      names := names.put b.name (.cls id) } } := by
  obtain ⟨k, names, hk, hseed, hrun⟩ := execute_of_activation h
  have hname : k.name = b.name := Source.nodeName_eq_ok (Source.classOf_eq_ok hk).2.2
  obtain ⟨M, new, u, himports, hdefined, hfound, rfl⟩ := World.execute_eq_ok hrun
  cases World.found_defined hname hfound
  cases himports
  refine ⟨k, names, u, hk, hseed, hdefined, ?_⟩
  rw [hname]
  rfl

/-- An activation defines the class of a blueprint in a module of its symbols. -/
theorem defines_of_activation (tame : Tame S w) (h : activation settings b w = (.ok id, w')) :
    ∃ k names u modules, Source.classOf b = .ok k ∧ seed w b = .ok names ∧ w' = { u with modules } ∧
      Defines S w.modules.size k (w.withModule (inProcess settings b names).start) id u := by
  obtain ⟨k, names, u, hk, hseed, hdefined, rfl⟩ := defineClass_of_activation h
  exact ⟨k, names, u, _, hk, hseed, rfl, World.defineClass_eq_ok ⟨tame.init, tame.hook, tame.sets⟩ hdefined⟩

/--
What an activation makes of a method. Its code can be compiled, and becomes a function that the new class stores. The
parameters of that are evaluated one by one, each with the names of the symbols in place; where its body runs, the name of the
class is among them as well.
-/
structure Generates (settings : Settings) (S : String → Prop) (w : World) (b : Blueprint) (m : MethodDef) (id : Nat) (w' : World)
    (names : Entries Value) (c : Source.Method) (g : Nat) (G : Function) : Prop where
  code : Source.methodOf b m = .ok c
  sound : (c.within b.name).isSound = true
  seeded : seed w b = .ok names
  evolves : Evolves S w w'
  order : ∃ ancestors, w'.order id = id :: ancestors
  lineage : w.IsFurnished → ∃ rest, w'.lineage id = id :: rest
  stored : (w'.cls id).slots.get? m.name = some (.routine m.signature.kind g)
  function : w'.function? g = some G
  made : ∃ (s : World.Scope) (moduleName : String), (s.owner = b.name ∧ s.home = w.modules.size) ∧
    G = s.functionOf c moduleName G.params ∧
    List.Forall₂ (fun f x => ∃ y y' : World, (Evolves S w y ∧ y.modules[s.home]? = some (inProcess settings b names).start) ∧
      (s.parameter f).runFrom y = (.ok x, y')) (c.within b.name).formals G.params
  bound : ∃ M, w'.modules[w.modules.size]? = some M ∧ M.names = names.put b.name (.cls id)

theorem exists_generates {strict : Bool} {t' : Planning Roster} {m : MethodDef}
    (hb : (Blueprint.build (Provider.live w) defaults strict q).runFrom { provider := {} } = (.ok b, t'))
    (h : activation settings b w = (.ok id, w')) (hm : m ∈ b.methods) (tame : Tame S w) (kept : ¬S m.name)
    (undotted : ∀ f ∈ b.fields, '.' ∉ f.name.toList)
    (marks : m.signature.kind ≠ .ofInstance → b.lines.Pairwise Source.Line.Leaves) :
    ∃ names c g G, Generates settings S w b m id w' names c g G := by
  obtain ⟨ref, taken, -⟩ := takenFrom_of_build hb hm
  obtain ⟨k, names, hk, hseed, hrun⟩ := execute_of_activation h
  have hsound := World.isSound_of_execute hrun
  obtain ⟨k', names', u, hk', hseed', hdefined, rfl⟩ := defineClass_of_activation h
  cases hk.symm.trans hk'
  cases hseed.symm.trans hseed'
  have htame : Tame S (w.withModule (inProcess settings b names).start) := ⟨tame.init, tame.hook, tame.sets⟩
  have hdefines := World.defineClass_eq_ok htame hdefined
  obtain ⟨hname, done, c, rest, hmethods, hc, hrest⟩ :=
    Source.exists_method_of_classOf hk (nodup_names_of_build hb) hm
  have hsets := Source.setsIn_of_classOf (S := S) hk undotted
  obtain ⟨hcname, hckind, -⟩ := Source.methodOf_eq_ok hc
  have hplain : Text.privateName k.name c.name = m.name := by rw [hcname, taken.privateName_eq]
  have hlater : ∀ c' ∈ rest, Text.privateName k.name c'.name ≠ Text.privateName k.name c.name := by
    intro c' hc'
    obtain ⟨m', hm', heq, hne⟩ := hrest c' hc'
    obtain ⟨_, taken', -⟩ := takenFrom_of_build hb hm'
    rwa [hplain, heq, taken'.privateName_eq]
  have hmarks : c.kind ≠ .ofInstance → k.lines.Pairwise Source.Line.Leaves := by
    rw [hckind, Source.lines_eq hk]
    exact marks
  obtain ⟨s, v, v', params, f, moduleName, ⟨howner, hhome⟩, hbefore, hmodules, hxs, hF, hslot⟩ :=
    hdefines.exists_method hmethods htame hsets hmarks (by rwa [hplain]) hlater
  rw [World.impliedKind_eq_self (by rw [hplain]; exact taken.not_constructor), hplain, hckind] at hslot
  have hwith : Evolves S w _ := World.evolves_withModule w (inProcess settings b names).start
  refine ⟨names, c, f, s.functionOf c moduleName params, hc, ?_, hseed,
    (hwith.trans (hdefines.evolves htame hsets)).trans (Evolves.of_eq rfl rfl rfl), hdefines.exists_order,
    fun furnished => hdefines.exists_lineage ⟨furnished.classes, furnished.functions⟩, hslot, hF,
    ⟨s, moduleName, ⟨howner.trans hname, hhome⟩, rfl, ?_⟩, _, Array.getElem?_push_size, rfl⟩
  · unfold Source.Class.isSound at hsound
    rw [Bool.and_eq_true, List.all_eq_true] at hsound
    rw [← hname]
    exact hsound.2 c (hmethods ▸ List.mem_append_right _ List.mem_cons_self)
  · -- Each parameter is evaluated with the module of the symbols in place.
    rw [← hname]
    refine (Act.Faithful.forall₂_of_mapM (World.faithful_parameter s) (htame.evolves hbefore) hxs).imp ?_
    rintro f x ⟨y, y', hy, hymodules, hrun⟩
    refine ⟨y, y', ⟨(hwith.trans hbefore).trans hy, ?_⟩, hrun⟩
    rw [hymodules, hmodules, hhome]
    exact Array.getElem?_push_size

/-- The manifest of an activated class has for each generated method its signature, retold, and nothing else of that name. -/
theorem mem_members_iff_retold {strict : Bool} {t' : Planning Roster} {m : MethodDef}
    (hb : (Blueprint.build (Provider.live w) defaults strict q).runFrom { provider := {} } = (.ok b, t'))
    (h : activation settings b w = (.ok id, w')) (furnished : w.IsFurnished) (closed : w.IsClosed) (legal : w.IsLegal)
    (hm : m ∈ b.methods) (unhindered : m.Unhindered w b) {r : SymbolRef} {sets : List SymbolRef} {s : Signature} :
    s ∈ (w'.inspect id r sets).members ∧ s.name = m.name ↔ s = m.signature.retold w' id b.name := by
  obtain ⟨ref, taken, hbinding, hreferences⟩ := takenFrom_of_build hb hm
  obtain ⟨names, c, g, G, generates⟩ :=
    exists_generates hb h hm unhindered.tame (fun hset => hset.1 rfl) unhindered.undotted unhindered.marks
  obtain ⟨scope, moduleName, -, hG, hmet⟩ := generates.made
  obtain ⟨rest, hlineage⟩ := generates.lineage furnished
  have hretold : w'.signatureOf (w'.ownersOf id) m.name m.signature.kind G = m.signature.retold w' id b.name := by
    rw [hG, ← (Source.methodOf_eq_ok generates.code).2.1]
    refine World.signatureOf_functionOf generates.code
      (Blueprint.isLegal_of_build legal (fun e he => absurd he List.not_mem_nil) hb hm) taken.name_eq hmet ?_
    intro reference href p hp text reader value y y' hdefault hliteral hreader ⟨hy, hmodule⟩ hrun
    have hcomputed : m.hasComputedDefaults = true := List.any_eq_true.2 ⟨p, hp, by simp [hdefault, hliteral]⟩
    obtain ⟨reads, stable, stored⟩ := unhindered.defaults hcomputed
    obtain ⟨reference', href', hglobal⟩ := hreferences names generates.seeded
    rw [href] at href'
    cases href'
    exact World.spell_readBack legal closed furnished taken (stored _ hbinding) hp hdefault hy generates.evolves hmodule
      (get?_seed_of_binding hb generates.seeded reads hreader) hglobal (privateName_reader hb hreader b.name) (stable _ href) hrun
  rw [← hretold]
  exact World.mem_members_iff_of_own taken.not_bookkeeping hlineage generates.stored generates.function

/--
Every composite of live classes that is activated: of each method, the manifest of its class has the signature that was
planned, retold, and no other member of that name. This says the same as was planned exactly if no parameter is private to
the composite, each default that is a literal is written as its value is, and the new class hides no name of the method.
-/
theorem signature_kept_iff {p₁ : Session} {settings' : Settings} {m : MethodDef}
    (hplan : (plan .live settings q).runFrom p = (.ok b, p₁))
    (hactivate : (activate settings' binds b).runFrom p₁ = (.ok id, p'))
    (furnished : p.world.IsFurnished) (closed : p.world.IsClosed) (legal : p.world.IsLegal) (hm : m ∈ b.methods)
    (unhindered : m.Unhindered p.world b) (r : SymbolRef) (sets : List SymbolRef) :
    (∀ s, s ∈ (p'.world.inspect id r sets).members ∧ s.name = m.name ↔ s = m.signature.retold p'.world id b.name) ∧
      ((∃ s ∈ (p'.world.inspect id r sets).members, s.Matches m.signature) ↔
        (∀ x ∈ m.signature.params, Text.privateName b.name x.name = x.name ∧
          x.default.map p'.world.respell = x.default) ∧
          nameVisibility m.name (p'.world.ownersOf id) ≠ .hidden) := by
  obtain ⟨hworld, t', hb⟩ := build_of_plan hplan
  have hrun := activation_of_activate hactivate
  rw [hworld] at hrun
  have hmembers : ∀ s, s ∈ (p'.world.inspect id r sets).members ∧ s.name = m.name ↔
      s = m.signature.retold p'.world id b.name := fun s =>
    mem_members_iff_retold hb hrun furnished closed legal hm unhindered
  refine ⟨hmembers, ?_⟩
  obtain ⟨ref, taken, -⟩ := takenFrom_of_build hb hm
  have hretold : (∃ s ∈ (p'.world.inspect id r sets).members, s.Matches m.signature) ↔
      (m.signature.retold p'.world id b.name).Matches m.signature := by
    constructor
    · rintro ⟨s, hs, hmatches⟩
      rwa [← (hmembers s).1 ⟨hs, hmatches.1.trans taken.name_eq⟩]
    · intro hmatches
      exact ⟨_, ((hmembers _).2 rfl).1, hmatches⟩
  rw [hretold, Signature.retold_matches_iff, taken.name_eq, taken.visibility, nameVisibility_eq_iff taken.visible]

/-- A cart, and a rebate whose rate takes a limit that is private to the class it stands in, and a class by default. -/
def outlet : Session where
  world :=
    { World.fresh with
      classes := World.fresh.classes ++
        #[{ name := "Cart", qualname := "Cart", home := "shop", order := [7, World.objectId] },
          { name := "Rebate", qualname := "Rebate", home := "shop", order := [8, World.objectId],
            slots := [("rate", .routine .ofInstance 9)] }]
      functions := World.fresh.functions.push
        { name := "rate", qualname := "Rebate.rate", home := "shop",
          params := [{ name := "self" }, { name := "__limit" }, { name := "on", default := some (.cls 7) }],
          body := .nothing } }
  files := { here := ⟨"/", ["shop"]⟩ }

def bargain : Request where
  name := "Sale"
  base := .live 7 ⟨"shop", "Cart"⟩
  mixins := [.live 8 ⟨"shop", "Rebate"⟩]

theorem storesMethods_outlet : outlet.world.StoresMethods 8 "rate" := by
  have horder : outlet.world.order 8 = [8, World.objectId] := by decide +kernel
  have hline : outlet.world.lineage 8 = [8] := by decide +kernel
  refine ⟨fun a ha slot hslot => ?_, fun a ha hmark => ?_⟩
  · rw [horder] at ha
    rcases List.mem_pair.1 ha with rfl | rfl
    · exact ⟨.ofInstance, 9, _, (Option.some.inj hslot).symm, rfl⟩
    · cases hslot
  · rw [horder] at ha
    rw [hline] at hmark
    rcases List.mem_pair.1 ha with rfl | rfl
    · exact absurd (List.mem_singleton_self 8) hmark
    · rfl

theorem signature_kept_iff_outlet : ∃ b p₁ id p', (plan .live {} bargain).runFrom outlet = (.ok b, p₁) ∧
    (activate {} false b).runFrom p₁ = (.ok id, p') ∧ ∃ m ∈ b.methods, m.name = "rate" ∧
      ((m.signature.retold p'.world id b.name) ∈ (p'.world.manifestOf id).members ∧
        ¬∃ s ∈ (p'.world.manifestOf id).members, s.Matches m.signature) := by
  have hmix : ((mix .live {} false bargain).runFrom outlet).1.toOption.isSome = true := by decide +kernel
  have hfacts : (((plan .live {} bargain).runFrom outlet).1.toOption.map fun b =>
      (b.name, b.fields.all (fun f => !f.name.toList.contains '.'), b.bindings.get? SymbolRef.parameterDefault.path)) =
      some ("Sale", true, some (.function World.parameterDefaultId)) := by decide +kernel
  have hmethods : (((plan .live {} bargain).runFrom outlet).1.toOption.map fun b => b.methods.map fun m =>
      (m.name, m.signature.kind, m.signature.params.map Param.name)) = some [("rate", .ofInstance, ["__limit", "on"])] := by
    decide +kernel
  have hreferences : (((plan .live {} bargain).runFrom outlet).1.toOption.map fun b => b.methods.map fun m =>
      (b.aliases.get? m.reference, b.bindings.get? m.reference)) = some [(some "Rebate", some (.cls 8))] := by
    decide +kernel
  have hsets : ∀ f ∈ outlet.world.functions.toList, f.sets = [] := by decide +kernel
  rw [runFrom_mix] at hmix
  generalize hplan : (plan .live {} bargain).runFrom outlet = r at hmix hfacts hmethods hreferences
  obtain ⟨outcome, p₁⟩ := r
  cases outcome with
  | error e => cases hfacts
  | ok b =>
    dsimp only at hmix
    generalize hactivate : (activate {} false b).runFrom p₁ = r at hmix
    obtain ⟨outcome, p'⟩ := r
    obtain ⟨id, rfl⟩ := Outcome.exists_eq_ok_of_isSome hmix
    have hfacts := Option.some.inj hfacts
    simp only [Prod.mk.injEq] at hfacts
    obtain ⟨hname, hfields, hreader⟩ := hfacts
    obtain ⟨m, ms, hms, hm, -⟩ := List.map_eq_cons_iff.1 (Option.some.inj hmethods)
    have hmem : m ∈ b.methods := by simp [hms]
    have hreferences := Option.some.inj hreferences
    simp only [hms, List.map_cons, List.cons.injEq, Prod.mk.injEq] at hm hreferences
    obtain ⟨hmname, hkind, hparams⟩ := hm
    obtain ⟨⟨halias, hbinding⟩, -⟩ := hreferences
    have unhindered : m.Unhindered outlet.world b := by
      refine ⟨⟨?_, ?_, fun f hf name hset => ?_⟩, ?_, fun hmarked => absurd hkind hmarked, fun _ => ⟨hreader, ?_, ?_⟩⟩
      · rw [hmname]
        decide
      · rw [hmname]
        decide
      · rw [hsets f (Array.mem_toList_iff.2 hf)] at hset
        cases hset
      · intro f hf
        simpa using List.all_eq_true.1 hfields f hf
      · rintro name hname'
        rw [halias] at hname'
        cases hname'
        rw [hname]
        decide +kernel
      · intro id' hid'
        rw [hbinding] at hid'
        cases hid'
        rw [hmname]
        exact storesMethods_outlet
    have furnished : outlet.world.IsFurnished := .of_more (by decide +kernel) Array.push_eq_append
    obtain ⟨hretold, hkept⟩ := signature_kept_iff hplan hactivate furnished (by decide +kernel) (by decide +kernel) hmem
      unhindered (p'.world.refOf id) ((p'.world.capabilityAncestors id).map p'.world.refOf)
    refine ⟨b, p₁, id, p', rfl, hactivate, m, hmem, hmname, ((hretold _).2 rfl).1, fun h => ?_⟩
    have hlimit : "__limit" ∈ m.signature.params.map Param.name := by simp [hparams]
    obtain ⟨x, hx, hxname⟩ := List.mem_map.1 hlimit
    have hstable := ((hkept.1 h).1 x hx).1
    rw [hname, hxname] at hstable
    exact absurd hstable (by decide +kernel)

end Session

end Amalgam
