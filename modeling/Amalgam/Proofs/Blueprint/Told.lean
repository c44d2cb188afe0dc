import Amalgam.Proofs.Blueprint.Hooks
import Amalgam.Proofs.Blueprint.Swapping

/-!
# The plan as a function of what is told

What a plan has of members, methods and fields follows from the manifests that the provider gives, the combinators that it
reads, and the cutpoints of the caller (`Blueprint.told_of_outline`). The members are those that are discovered, each with its
definitions (`MemberMap.collect_eq_map`), and what may be taken of a contributor is read off its manifest
(`Provider.offers_of_mapM`).
-/

namespace Amalgam

variable {σ : Type}

/-! ## The members of a mix -/

/-- A table without repetitions is what it has for each of its keys. -/
theorem Entries.eq_map_keys {α : Type} {t : Entries α} (distinct : t.keys.Nodup) {f : String → α}
    (h : ∀ key ∈ t.keys, t.get? key = some (f key)) : t = t.keys.map fun key => (key, f key) := by
  rw [keys, List.map_map]
  conv_lhs => rw [← List.map_id t]
  refine List.map_congr_left fun e he => Prod.ext rfl ?_
  have hkey := h e.1 (List.mem_map_of_mem he)
  rw [get?_of_mem distinct he] at hkey
  exact Option.some.inj hkey

namespace MemberMap

/-- The names of all members in the order in which they are discovered. -/
def discovered (served : List (SymbolRef × List Signature)) : List String :=
  (served.flatMap fun e => e.2.map Signature.name).eraseDups

theorem keys_addAll (m : MemberMap) (r : SymbolRef) (members : List Signature) :
    (members.foldl (fun m s => m.add r s) m).keys =
      (members.map Signature.name).foldl (fun done name => if done.contains name then done else done ++ [name]) m.keys := by
  induction members generalizing m with
  | nil => rfl
  | cons s members ih =>
    rw [List.foldl_cons, ih, List.map_cons, List.foldl_cons, add, Entries.keys_put]
    simp only [List.contains_iff_mem]

theorem keys_collect (served : List (SymbolRef × List Signature)) : (collect [] served).keys = discovered served := by
  suffices ∀ m : MemberMap, (m.collect served).keys =
      (served.flatMap fun e => e.2.map Signature.name).foldl
        (fun done name => if done.contains name then done else done ++ [name]) m.keys by
    rw [this, Blueprint.foldl_fresh]
    simp [discovered, Entries.keys]
  induction served with
  | nil => exact fun _ => rfl
  | cons e served ih =>
    intro m
    rw [List.flatMap_cons, List.foldl_append, ← keys_addAll, ← ih]
    rfl

/-- The members are those that are discovered, each with all of its definitions. -/
theorem collect_eq_map (served : List (SymbolRef × List Signature)) :
    collect [] served = (discovered served).map fun name => (name, definitions served name) := by
  have hdistinct : (collect [] served).keys.Nodup := by
    rw [keys_collect]
    exact Blueprint.nodup_eraseDups _
  rw [← keys_collect]
  refine Entries.eq_map_keys hdistinct fun name hname => ?_
  have hget := get?_collect [] served name
  split at hget
  · exact absurd hname ((Entries.get?_eq_none_iff _ _).1 hget)
  · exact hget

/-- A member is discovered exactly if it has a definition. -/
theorem mem_discovered {served : List (SymbolRef × List Signature)} {name : String} :
    name ∈ discovered served ↔ definitions served name ≠ [] := by
  have hget := get?_collect [] served name
  rw [← keys_collect, ← not_iff_not, not_not, ← Entries.get?_eq_none_iff, hget]
  split
  · simp_all [Entries.get?]
  · simp_all

end MemberMap

/-! ## What may be taken from contributors -/

/-- The members that the first class may give in a role, and that all others may give as mixins. -/
def Manifest.offers : Role → List Manifest → List (List Signature)
  | _, [] => []
  | role, m :: rest => m.eligibleMembers role :: offers .mixin rest

theorem Act.length_of_mapM {α β : Type} {f : α → Act σ β} {as : List α} {bs : List β} {s s' : σ}
    (h : (as.mapM f).runFrom s = (.ok bs, s')) : as.length = bs.length := by
  induction as generalizing bs s with
  | nil =>
    cases h
    rfl
  | cons a as ih =>
    rw [List.mapM_cons] at h
    obtain ⟨b, u, -, h⟩ := Act.bind_eq_ok.1 h
    obtain ⟨bs, v, hbs, h⟩ := Act.bind_eq_ok.1 h
    cases h
    exact congrArg Nat.succ (ih hbs)

/-- What may be taken from contributors is read off their manifests. -/
theorem Provider.offers_of_mapM {p : Provider σ} {role : Role} {rs : List SymbolRef} {served : List (List Signature)}
    {s s' : σ} (h : ((Blueprint.rolesOf role rs).mapM fun e => p.eligibleMembers e.1 e.2).runFrom s = (.ok served, s')) :
    ∃ listed, (rs.mapM p.manifest).runFrom s = (.ok listed, s') ∧ served = Manifest.offers role listed := by
  induction rs generalizing role served s with
  | nil =>
    cases h
    exact ⟨[], rfl, rfl⟩
  | cons r rest ih =>
    rw [Blueprint.rolesOf, List.mapM_cons] at h
    obtain ⟨members, u, hmembers, h⟩ := Act.bind_eq_ok.1 h
    obtain ⟨more, v, hmore, h⟩ := Act.bind_eq_ok.1 h
    obtain ⟨m, w, hm, hpure⟩ := Act.bind_eq_ok.1 hmembers
    cases hpure
    cases h
    obtain ⟨listed, hlisted, rfl⟩ := ih hmore
    refine ⟨m :: listed, ?_, rfl⟩
    rw [List.mapM_cons]
    exact Act.bind_eq_ok.2 ⟨m, u, hm, Act.bind_eq_ok.2 ⟨listed, _, hlisted, rfl⟩⟩

/-- Where only mixins offer members, there is a definition of a name exactly if one of them offers it. -/
theorem MemberMap.definitions_offers_ne_nil {rs : List SymbolRef} {ms : List Manifest} (hlen : rs.length = ms.length)
    (name : String) : definitions (rs.zip (Manifest.offers .mixin ms)) name ≠ [] ↔
      ∃ m ∈ ms, ∃ s ∈ m.eligibleMembers .mixin, s.name = name := by
  induction ms generalizing rs with
  | nil =>
    obtain rfl := List.length_eq_zero_iff.1 hlen
    simp [definitions]
  | cons m ms ih =>
    cases rs with
    | nil => simp at hlen
    | cons r rs =>
      have hrest := ih (Nat.succ.inj hlen)
      have hhere : (((m.eligibleMembers .mixin).filter fun s => s.name == name).map fun s => (r, s)) ≠ [] ↔
          ∃ s ∈ m.eligibleMembers .mixin, s.name = name := by
        simp [List.filter_eq_nil_iff]
      rw [Manifest.offers, List.zip_cons_cons, show definitions ((r, m.eligibleMembers .mixin) ::
        rs.zip (Manifest.offers .mixin ms)) name = (((m.eligibleMembers .mixin).filter fun s => s.name == name).map fun s =>
          (r, s)) ++ definitions (rs.zip (Manifest.offers .mixin ms)) name from rfl, ne_eq, List.append_eq_nil_iff, not_and_or,
        List.exists_mem_cons_iff]
      exact or_congr hhere hrest

theorem MemberMap.mem_of_mem_definitions {rs : List SymbolRef} {served : List (List Signature)} {name : String}
    {d : SymbolRef × Signature} (h : d ∈ definitions (rs.zip served) name) : d.1 ∈ rs := by
  obtain ⟨e, he, hd⟩ := List.mem_flatMap.1 h
  obtain ⟨s, -, rfl⟩ := List.mem_map.1 hd
  exact (List.of_mem_zip he).1

/-! ## Names of copied fields -/

namespace Fields

/-- A name is added if it is free and some field that could be copied has it. -/
theorem mem_names_added {origin : SymbolRef} {taken : List String} {fields : List Field} {name : String} :
    name ∈ (added origin taken fields).map FieldDef.name ↔
      name ∉ taken ∧ name ≠ reservedField ∧ ∃ f ∈ fields, f.name = name ∧ f.isStatic = false := by
  induction fields generalizing taken with
  | nil => simp [added]
  | cons f rest ih =>
    unfold added
    split
    · rename_i hskip
      rw [ih, List.exists_mem_cons_iff]
      simp only [Bool.or_eq_true, beq_iff_eq, List.contains_iff_mem] at hskip
      refine and_congr_right fun htaken => and_congr_right fun hname => ⟨Or.inr, fun h => h.resolve_left ?_⟩
      rintro ⟨rfl, hstatic⟩
      simp [hname, htaken, hstatic] at hskip
    · rename_i hkeep
      simp only [Bool.or_eq_true, beq_iff_eq, List.contains_iff_mem, not_or, Bool.not_eq_true] at hkeep
      obtain ⟨⟨hname, hstatic⟩, htaken⟩ := hkeep
      rw [List.map_cons, List.mem_cons, ih, List.exists_mem_cons_iff, List.mem_append, List.mem_singleton]
      show name = f.name ∨ _ ↔ _
      by_cases heq : name = f.name
      · subst heq
        simp [hname, hstatic, htaken]
      · simp [heq, Ne.symm heq]

/-- The fields of contributors add the names of all their fields that are not static. -/
theorem mem_names_of_addContributors {p : Provider σ} {rs : List SymbolRef} {done all : List FieldDef} {s s' : σ}
    (hdone : reservedField ∈ done.map FieldDef.name) (h : (addContributors p done rs).runFrom s = (.ok all, s')) :
    ∃ described, (rs.mapM p.manifest).runFrom s = (.ok described, s') ∧ ∀ name, name ∈ all.map FieldDef.name ↔
      name ∈ done.map FieldDef.name ∨ ∃ m ∈ described, ∃ f ∈ m.fields, f.name = name ∧ f.isStatic = false := by
  induction rs generalizing done s with
  | nil =>
    cases h
    exact ⟨[], rfl, by simp⟩
  | cons r rest ih =>
    obtain ⟨m, u, hm, h⟩ := Act.bind_eq_ok.1 h
    obtain ⟨next, v, hnext, h⟩ := Act.bind_eq_ok.1 h
    rw [Act.runFrom_ofExcept, Prod.mk.injEq, addAll_eq] at hnext
    obtain ⟨hnext, rfl⟩ := hnext
    split at hnext
    · cases hnext
    cases hnext
    have hreserved : reservedField ∈ (done ++ added r (done.map FieldDef.name) m.fields).map FieldDef.name := by
      rw [List.map_append]
      exact List.mem_append_left _ hdone
    obtain ⟨described, hdescribed, hnames⟩ := ih hreserved h
    refine ⟨m :: described, ?_, fun name => ?_⟩
    · rw [List.mapM_cons]
      exact Act.bind_eq_ok.2 ⟨m, u, hm, Act.bind_eq_ok.2 ⟨described, _, hdescribed, rfl⟩⟩
    · rw [hnames, List.map_append, List.mem_append, mem_names_added, List.exists_mem_cons_iff, or_assoc]
      by_cases htaken : name ∈ done.map FieldDef.name
      · simp [htaken]
      · have hname : name ≠ reservedField := fun heq => htaken (heq ▸ hdone)
        simp [htaken, hname]

end Fields

/-! ## What a build is told -/

/--
What a provider tells in the course of a build: the contributors, their manifests when the fields are collected, and their
manifests when the members are collected right after that.
-/
def Provider.Describes (p : Provider σ) (q : Request) (t : Planning σ) (x : Blueprint.Mix)
    (described listed : List Manifest) : Prop :=
  ∃ header u v, (Blueprint.resolveMix p q).runFrom t = (.ok x, u) ∧
    (Blueprint.planHeader p q.name x).runFrom u = (.ok header, v) ∧
    ∃ s s', (x.participants.mapM p.manifest).runFrom v.provider = (.ok described, s) ∧
      (x.participants.mapM p.manifest).runFrom s = (.ok listed, s')

/-- There is one manifest for each contributor. -/
theorem Provider.Describes.length {p : Provider σ} {q : Request} {t : Planning σ} {x : Blueprint.Mix}
    {described listed : List Manifest} (h : p.Describes q t x described listed) :
    x.participants.length = listed.length := by
  obtain ⟨_, _, _, -, -, _, _, -, hlisted⟩ := h
  exact Act.length_of_mapM hlisted

theorem Provider.Describes.length_described {p : Provider σ} {q : Request} {t : Planning σ} {x : Blueprint.Mix}
    {described listed : List Manifest} (h : p.Describes q t x described listed) :
    x.participants.length = described.length := by
  obtain ⟨_, _, _, -, -, _, _, hdescribed, -⟩ := h
  exact Act.length_of_mapM hdescribed

/-- A table of manifests tells the same whenever it is asked. -/
theorem Provider.eq_of_describes (y : Blueprint.Mix) (told : List Manifest) {ms : List Manifest} {q : Request}
    {x : Blueprint.Mix} {described listed : List Manifest}
    (h : (ofManifests ms).Describes q ⟨(), []⟩ x described listed)
    (hmix : ((Blueprint.resolveMix (ofManifests ms) q).runFrom (⟨(), []⟩ : Planning Unit)).1.toOption = some y)
    (htold : ((y.participants.mapM (ofManifests ms).manifest).runFrom ()).1.toOption = some told) :
    x = y ∧ described = told ∧ listed = told := by
  obtain ⟨_, u, v, hx, -, s, s', hdescribed, hlisted⟩ := h
  rw [hx] at hmix
  obtain rfl := Option.some.inj hmix
  exact ⟨rfl, Option.some.inj ((congrArg (fun r => r.1.toOption) hdescribed).symm.trans htold),
    Option.some.inj ((congrArg (fun r => r.1.toOption) hlisted).symm.trans htold)⟩

namespace Blueprint

variable {p : Provider σ} {d : Defaults} {strict : Bool} {q : Request} {t t' : Planning σ}

/-- What the contributors give to a mix, by their manifests. -/
def Mix.served (x : Mix) (listed : List Manifest) : List (SymbolRef × List Signature) :=
  x.participants.zip (Manifest.offers .base listed)

/-- The definitions of a member are those of the base and then those of the mixins. -/
theorem definitions_served (x : Mix) (base : Manifest) (mixins : List Manifest) (name : String) :
    MemberMap.definitions (x.served (base :: mixins)) name =
    ((base.eligibleMembers .base).filter fun s => s.name == name).map (fun s => (x.base, s)) ++
      MemberMap.definitions (x.mixins.zip (Manifest.offers .mixin mixins)) name := rfl

/--
A plan that goes by what the provider tells, namely by the manifests that it gives for the fields and for the members, and
by the combinators that it reads for the caller.
-/
structure Outline.Told (p : Provider σ) (d : Defaults) (q : Request) (t : Planning σ) (o : Outline)
    (described listed : List Manifest) (read : Entries CombinatorSpec) : Prop where
  describes : p.Describes q t o.mix described listed
  reads : q.Reads p read
  base : o.context.base = o.mix.base
  members : o.context.members = MemberMap.collect [] (o.mix.served listed)
  enabled : ∀ phase, ∀ name ∈ MemberMap.discovered (o.mix.served listed),
    o.context.isEnabled phase name = q.advises phase name
  combinator : ∀ name ∈ MemberMap.discovered (o.mix.served listed),
    o.context.specs.get? name = q.combinator? d read (MemberMap.discovered (o.mix.served listed)) name
  methods : o.methods = o.context.members.flatMap fun e => o.context.methodsOf e.1 e.2
  fields : ∀ name, name ∈ o.fields.map FieldDef.name ↔
    name = reservedField ∨ ∃ m ∈ described, ∃ f ∈ m.fields, f.name = name ∧ f.isStatic = false

theorem told_of_outline {o : Outline} (h : (outline p d strict q).runFrom t = (.ok o, t')) :
    ∃ described listed read, o.Told p d q t described listed read := by
  obtain ⟨-, u, v, w, x, y, hmix, hheader, hfields, hmembers, hcontext, hmethods⟩ := runs_of_outline h
  obtain ⟨-, hbase, -⟩ := planContext_eq_ok hcontext
  obtain ⟨described, hdescribed, hnames⟩ :=
    Fields.mem_names_of_addContributors List.mem_cons_self (Planner.ask_eq_ok hfields)
  obtain ⟨served, hserved, hall⟩ := memberMap_eq_collect hmembers
  obtain ⟨listed, hlisted, rfl⟩ := Provider.offers_of_mapM hserved
  obtain ⟨read, _, hread, hspecs⟩ := get?_specs_of_planContext hcontext
  have henabled := isEnabled_of_planContext hcontext
  have hkeys : o.context.members.keys = MemberMap.discovered (o.mix.served listed) := by
    rw [hall]
    exact MemberMap.keys_collect _
  rw [hkeys] at henabled hspecs
  exact ⟨described, listed, read,
    { describes := ⟨_, u, v, hmix, hheader, _, _, hdescribed, hlisted⟩
      reads := reads_of_parseAll hread
      base := hbase
      members := hall
      enabled := fun phase name => henabled phase
      combinator := hspecs
      methods := (planMethods_eq hmethods).1
      fields := fun name => (hnames name).trans (or_congr_left List.mem_singleton) }⟩

/-- A method is that of a member which needs one, made of the definitions of the member. -/
theorem Outline.Told.mem_methods {o : Outline} {described listed : List Manifest} {read : Entries CombinatorSpec}
    (told : o.Told p d q t described listed read) {m : MethodDef} : m ∈ o.methods ↔ ∃ first rest,
      MemberMap.definitions (o.mix.served listed) m.name = first :: rest ∧
        o.context.needsMethod m.name ((first :: rest).map Prod.fst) = true ∧ m = o.context.methodFor m.name first rest := by
  rw [told.methods, told.members, MemberMap.collect_eq_map, List.flatMap_map, List.mem_flatMap]
  constructor
  · rintro ⟨name, -, hm⟩
    obtain ⟨first, rest, hdefinitions, hneeds, rfl⟩ := Context.mem_methodsOf.1 hm
    exact ⟨first, rest, hdefinitions, hdefinitions ▸ hneeds, rfl⟩
  · rintro ⟨first, rest, hdefinitions, hneeds, hm⟩
    refine ⟨m.name, MemberMap.mem_discovered.2 (by simp [hdefinitions]), ?_⟩
    exact Context.mem_methodsOf.2 ⟨first, rest, hdefinitions, hdefinitions ▸ hneeds, hm⟩

/-- A member that needs no method is given by the base alone, and once. -/
theorem base_only {c : Context} {x : Mix} {base : Manifest} {mixins : List Manifest} {name : String} (hbase : c.base = x.base)
    (hdistinct : (x.participants.map SymbolRef.path).Nodup) {first : SymbolRef × Signature}
    {rest : List (SymbolRef × Signature)}
    (hdefinitions : MemberMap.definitions (x.served (base :: mixins)) name = first :: rest)
    (hneeds : ¬c.needsMethod name ((first :: rest).map Prod.fst) = true) :
    ((base.eligibleMembers .base).filter fun s => s.name == name) = [first.2] ∧
      MemberMap.definitions (x.mixins.zip (Manifest.offers .mixin mixins)) name = [] := by
  obtain ⟨hfresh, -⟩ := List.nodup_cons.1 hdistinct
  unfold Context.needsMethod at hneeds
  simp only [List.map_cons, List.length_cons, List.length_map, List.head?_cons, Bool.or_eq_true, decide_eq_true_eq, not_or,
    bne_iff_ne, ne_eq, not_not, Option.some.injEq, hbase] at hneeds
  obtain ⟨⟨-, hlength⟩, hfirst⟩ := hneeds
  obtain rfl := List.length_eq_zero_iff.1 (show rest.length = 0 by omega)
  rw [definitions_served, List.append_eq_singleton_iff] at hdefinitions
  rcases hdefinitions with ⟨-, hothers⟩ | ⟨hown, hothers⟩
  · have hmem := MemberMap.mem_of_mem_definitions (hothers ▸ List.mem_singleton_self first)
    exact absurd (List.mem_map.2 ⟨first.1, hmem, congrArg SymbolRef.path hfirst⟩) hfresh
  · obtain ⟨s, hs, rfl⟩ := List.map_eq_singleton_iff.1 hown
    exact ⟨hs, hothers⟩

/-- A member that a mixin gives gets a method. -/
theorem Outline.Told.generated_of_mixin {o : Outline} {described : List Manifest} {base : Manifest} {mixins : List Manifest}
    {read : Entries CombinatorSpec} (told : o.Told p d q t described (base :: mixins) read)
    (hdistinct : (o.mix.participants.map SymbolRef.path).Nodup) {name : String}
    (hgives : ∃ m ∈ mixins, ∃ s ∈ m.eligibleMembers .mixin, s.name = name) : name ∈ o.methods.map MethodDef.name := by
  rw [← MemberMap.definitions_offers_ne_nil (Nat.succ.inj told.describes.length)] at hgives
  have hne : MemberMap.definitions (o.mix.served (base :: mixins)) name ≠ [] := by
    rw [definitions_served]
    exact List.append_ne_nil_of_right_ne_nil _ hgives
  obtain ⟨first, rest, hdefinitions⟩ := List.exists_cons_of_ne_nil hne
  have hneeds : o.context.needsMethod name ((first :: rest).map Prod.fst) = true := by
    by_contra hneeds
    exact hgives (base_only told.base hdistinct hdefinitions hneeds).2
  exact List.mem_map.2 ⟨o.context.methodFor name first rest,
    told.mem_methods.2 ⟨first, rest, hdefinitions, hneeds, rfl⟩, rfl⟩

end Blueprint

end Amalgam
