import Amalgam.Proofs.Blueprint.Planning

/-!
# What a plan is made of

The steps of planning, one law each: what a step that succeeds has done, and what it leaves of the provider. A provider
is taken as it comes; `Provider.Keeps` names what its answers have in common, and `Outline.Sound` what follows for a plan:
each method goes back to definitions of contributors (`MethodDef.PlannedFrom`), and each copied field to one of them.
-/

namespace Amalgam

variable {σ : Type} {Inv : σ → Prop} {Good : SymbolRef → Manifest → Prop}

/-- From good states on, the provider stays in good states and serves good manifests. -/
structure Provider.Keeps (p : Provider σ) (Inv : σ → Prop) (Good : SymbolRef → Manifest → Prop) : Prop where
  resolve : ∀ t s, Inv s → Inv ((p.resolve t).runFrom s).2
  manifest : ∀ r s, Inv s → Inv ((p.manifest r).runFrom s).2
  good : ∀ {r s m s'}, Inv s → (p.manifest r).runFrom s = (.ok m, s') → Good r m

/-- Of any provider at all, nothing is known. -/
theorem Provider.keeps_trivial (p : Provider σ) : p.Keeps (fun _ => True) (fun _ _ => True) :=
  ⟨fun _ _ _ => trivial, fun _ _ _ => trivial, fun _ _ => trivial⟩

/-- What is in the table of given manifests is served. -/
theorem Provider.manifest_ofManifests {ms : List Manifest} {r : SymbolRef} {m : Manifest}
    (h : (table ms).get? r.path = some m) (u : Unit) : ((ofManifests ms).manifest r).runFrom u = (.ok m, u) := by
  unfold ofManifests
  dsimp only
  rw [h]
  rfl

/-! ## Questions to the provider -/

section Questions

variable {p : Provider σ} (keeps : p.Keeps Inv Good) {t t' : Planning σ}

include keeps

theorem Planner.resolve_keeps {type : TypeLike} {r : SymbolRef} (good : Inv t.provider)
    (h : (ask (p.resolve type)).runFrom t = (.ok r, t')) : Inv t'.provider := by
  have := keeps.resolve type _ good
  rwa [ask_eq_ok h] at this

theorem Provider.capabilitySets_keeps (r : SymbolRef) {s : σ} (good : Inv s) :
    Inv ((p.capabilitySets r).runFrom s).2 := by
  have := keeps.manifest r s good
  unfold Provider.capabilitySets
  rw [Act.runFrom_bind]
  split
  · rename_i heq
    rw [heq] at this
    exact this
  · rename_i heq
    rw [heq] at this
    exact this

theorem Planner.capabilitySets_keeps {r : SymbolRef} {sets : List SymbolRef} (good : Inv t.provider)
    (h : (ask (p.capabilitySets r)).runFrom t = (.ok sets, t')) : Inv t'.provider := by
  have := Provider.capabilitySets_keeps keeps r good
  rwa [ask_eq_ok h] at this

/-- The eligible members of a class are those of a good manifest. -/
theorem Planner.eligibleMembers_eq_ok {r : SymbolRef} {role : Role} {members : List Signature} (good : Inv t.provider)
    (h : (ask (p.eligibleMembers r role)).runFrom t = (.ok members, t')) :
    (∃ m, Good r m ∧ members = m.eligibleMembers role) ∧ Inv t'.provider := by
  obtain ⟨m, u, hm, h⟩ := Act.bind_eq_ok.1 (ask_eq_ok h)
  cases h
  have := keeps.manifest r _ good
  rw [hm] at this
  exact ⟨⟨m, keeps.good good hm, rfl⟩, this⟩

omit keeps in
theorem Planner.mapM_keeps {α β : Type} {f : α → Planner σ β}
    (step : ∀ a {b} {t t' : Planning σ}, Inv t.provider → (f a).runFrom t = (.ok b, t') → Inv t'.provider)
    {as : List α} {bs : List β} (good : Inv t.provider) (h : (as.mapM f).runFrom t = (.ok bs, t')) :
    Inv t'.provider := by
  induction as generalizing bs t with
  | nil =>
    cases h
    exact good
  | cons a as ih =>
    rw [List.mapM_cons] at h
    obtain ⟨b, u, hb, h⟩ := Act.bind_eq_ok.1 h
    obtain ⟨more, v, hmore, h⟩ := Act.bind_eq_ok.1 h
    cases h
    exact ih (step a good hb) hmore

end Questions

/-! ## Contributors and header -/

namespace Blueprint

theorem nodup_of_repeated?_eq_none {seen : List String} {rs : List SymbolRef} (h : repeated? seen rs = none) :
    (rs.map SymbolRef.path).Nodup ∧ ∀ r ∈ rs, r.path ∉ seen := by
  induction rs generalizing seen with
  | nil => simp
  | cons r rest ih =>
    unfold repeated? at h
    split at h
    · cases h
    · rename_i hseen
      obtain ⟨hrest, hapart⟩ := ih h
      rw [List.contains_iff_mem] at hseen
      refine ⟨?_, ?_⟩
      · rw [List.map_cons, List.nodup_cons]
        refine ⟨fun hr => ?_, hrest⟩
        obtain ⟨x, hx, hxr⟩ := List.mem_map.1 hr
        exact hapart x hx (hxr ▸ List.mem_cons_self)
      · intro x hx
        rcases List.mem_cons.1 hx with rfl | hx
        · exact hseen
        · exact fun hxs => hapart x hx (List.mem_cons_of_mem _ hxs)

/-- The contributors are what the types of the request resolve to, one after another. -/
theorem participants_of_resolveMix {p : Provider σ} {q : Request} {x : Mix} {t t' : Planning σ}
    (h : (resolveMix p q).runFrom t = (.ok x, t')) :
    ((q.base :: q.mixins).mapM fun type => Planner.ask (p.resolve type)).runFrom t = (.ok x.participants, t') := by
  obtain ⟨base, u, hbase, h⟩ := Act.bind_eq_ok.1 h
  obtain ⟨mixins, v, hmixins, h⟩ := Act.bind_eq_ok.1 h
  split at h
  · cases h
  · cases h
    rw [List.mapM_cons]
    exact Act.bind_eq_ok.2 ⟨base, u, hbase, Act.bind_eq_ok.2 ⟨mixins, t', hmixins, rfl⟩⟩

theorem resolveMix_eq_ok {p : Provider σ} (keeps : p.Keeps Inv Good) {q : Request} {x : Mix} {t t' : Planning σ}
    (good : Inv t.provider) (h : (resolveMix p q).runFrom t = (.ok x, t')) :
    (x.participants.map SymbolRef.path).Nodup ∧ Inv t'.provider := by
  obtain ⟨base, u, hbase, h⟩ := Act.bind_eq_ok.1 h
  obtain ⟨mixins, v, hmixins, h⟩ := Act.bind_eq_ok.1 h
  have hu := Planner.resolve_keeps keeps good hbase
  have hv := Planner.mapM_keeps (fun _ => Planner.resolve_keeps keeps) hu hmixins
  split at h
  · cases h
  · rename_i hnone
    cases h
    exact ⟨(nodup_of_repeated?_eq_none hnone).1, hv⟩

/-- Things that are added one after another unless they are there: the first of each. -/
theorem foldl_fresh {α : Type} [BEq α] [LawfulBEq α] (as done : List α) :
    as.foldl (fun done a => if done.contains a then done else done ++ [a]) done =
      done ++ (as.filter fun a => !done.contains a).eraseDups := by
  induction as generalizing done with
  | nil => simp
  | cons a as ih =>
    rw [List.foldl_cons, ih]
    by_cases ha : done.contains a = true
    · rw [if_pos ha, List.filter_cons_of_neg (by simpa using ha)]
    · rw [if_neg ha, List.filter_cons_of_pos (by simpa using ha), List.eraseDups_cons, List.filter_filter,
        List.append_assoc, List.singleton_append]
      congr 3
      refine List.filter_congr fun b _ => ?_
      rw [List.contains_eq_mem, List.contains_eq_mem]
      grind

theorem nodup_eraseDups {α : Type} [BEq α] [LawfulBEq α] (as : List α) : as.eraseDups.Nodup := by
  suffices ∀ done : List α, done.Nodup →
      (as.foldl (fun done a => if done.contains a then done else done ++ [a]) done).Nodup by
    have hall := this [] List.nodup_nil
    rw [foldl_fresh] at hall
    simpa using hall
  induction as with
  | nil => exact fun _ h => h
  | cons a as ih =>
    intro done hdone
    rw [List.foldl_cons]
    refine ih _ ?_
    split
    · exact hdone
    · rename_i ha
      rw [List.contains_iff_mem] at ha
      exact List.nodup_append'.2 ⟨hdone, List.nodup_singleton a, by simpa using ha⟩

/-- A union keeps the first of every reference. -/
theorem union_eq_eraseDups (sets : List SymbolRef) : union sets = sets.eraseDups := by
  unfold union
  rw [foldl_fresh]
  simp

@[simp] theorem mem_union {sets : List SymbolRef} {r : SymbolRef} : r ∈ union sets ↔ r ∈ sets := by
  rw [union_eq_eraseDups, List.mem_eraseDups]

theorem nodup_union (sets : List SymbolRef) : (union sets).Nodup := by
  rw [union_eq_eraseDups]
  exact nodup_eraseDups sets

/-- A refusal of the question is noted; any other outcome stands. -/
theorem runFrom_setsAbove (p : Provider σ) (set : SymbolRef) (t : Planning σ) :
    (setsAbove p set).runFrom t = match (Planner.ask (p.capabilitySets set)).runFrom t with
      | (.error (.refusal _), t) => (Planner.note (.noAncestors set.path) *> pure []).runFrom t
      | (r, t) => (r, t) := rfl

/-- The sets above one that has a manifest are those that it lists. -/
theorem setsAbove_of_ok {p : Provider σ} {set : SymbolRef} {sets : List SymbolRef} {t t' : Planning σ}
    (h : (Planner.ask (p.capabilitySets set)).runFrom t = (.ok sets, t')) : (setsAbove p set).runFrom t = (.ok sets, t') := by
  rw [runFrom_setsAbove, h]

/-- A set without a manifest leaves the provider in the state in which it refused the question. -/
theorem setsAbove_keeps {p : Provider σ} (keeps : p.Keeps Inv Good) {set : SymbolRef} {above : List SymbolRef}
    {t t' : Planning σ} (good : Inv t.provider) (h : (setsAbove p set).runFrom t = (.ok above, t')) :
    Inv t'.provider := by
  have hask := Provider.capabilitySets_keeps keeps set good
  rw [runFrom_setsAbove, Planner.runFrom_ask] at h
  generalize (p.capabilitySets set).runFrom t.provider = r at hask h
  obtain ⟨r, u⟩ := r
  split at h
  · rename_i heq
    rw [Prod.mk.injEq] at heq
    obtain ⟨-, rfl⟩ := heq
    cases h
    exact hask
  · rename_i heq
    rw [Prod.mk.injEq] at heq
    obtain ⟨-, rfl⟩ := heq
    cases h
    exact hask

theorem implied_keeps {p : Provider σ} (keeps : p.Keeps Inv Good) {sets : List SymbolRef} {above : List String}
    {t t' : Planning σ} (good : Inv t.provider) (h : (implied p sets).runFrom t = (.ok above, t')) :
    Inv t'.provider := by
  induction sets generalizing above t with
  | nil =>
    cases h
    exact good
  | cons set rest ih =>
    obtain ⟨here, u, hhere, h⟩ := Act.bind_eq_ok.1 h
    obtain ⟨more, v, hmore, h⟩ := Act.bind_eq_ok.1 h
    cases h
    exact ih (setsAbove_keeps keeps good hhere) hmore

theorem minimal_eq_ok {p : Provider σ} (keeps : p.Keeps Inv Good) {sets kept : List SymbolRef} {t t' : Planning σ}
    (good : Inv t.provider) (h : (minimal p sets).runFrom t = (.ok kept, t')) :
    kept ⊆ sets ∧ Inv t'.provider := by
  obtain ⟨above, u, habove, h⟩ := Act.bind_eq_ok.1 h
  cases h
  exact ⟨fun r hr => (List.mem_filter.1 hr).1, implied_keeps keeps good habove⟩

/-- The header names the contributors. -/
theorem paths_of_planHeader {p : Provider σ} {name : String} {x : Mix} {r : Header × List SymbolRef} {t t' : Planning σ}
    (h : (planHeader p name x).runFrom t = (.ok r, t')) : r.1.base :: r.1.mixins = x.participants.map SymbolRef.path := by
  obtain ⟨served, u, hserved, h⟩ := Act.bind_eq_ok.1 h
  obtain ⟨extra, v, hextra, h⟩ := Act.bind_eq_ok.1 h
  cases h
  rfl

/-- The header has the name that is asked for, names the base, and lists next to the base exactly the sets that the plan keeps apart. -/
theorem planHeader_eq_ok {p : Provider σ} (keeps : p.Keeps Inv Good) {name : String} {x : Mix}
    {r : Header × List SymbolRef} {t t' : Planning σ} (good : Inv t.provider)
    (h : (planHeader p name x).runFrom t = (.ok r, t')) :
    r.1.name = name ∧ r.1.base = x.base.path ∧ (∀ c ∈ r.1.extraBases, ∃ s ∈ r.2, c = s.path) ∧ Inv t'.provider := by
  obtain ⟨served, u, hserved, h⟩ := Act.bind_eq_ok.1 h
  obtain ⟨extra, v, hextra, h⟩ := Act.bind_eq_ok.1 h
  cases h
  have hu := Planner.mapM_keeps (fun _ => Planner.capabilitySets_keeps keeps) good hserved
  refine ⟨rfl, rfl, ?_, (minimal_eq_ok keeps hu hextra).2⟩
  intro c hc
  obtain ⟨hset, hfree⟩ := List.mem_filter.1 hc
  simp only [Bool.not_eq_true', List.contains_eq_mem, decide_eq_false_iff_not, List.mem_filter, not_and,
    not_not] at hfree
  obtain ⟨s, hs, rfl⟩ := List.mem_map.1 (hfree hset)
  exact ⟨s, hs, rfl⟩

end Blueprint

/-! ## Fields -/

namespace Fields

theorem addAll_eq_ok {origin : SymbolRef} {fields : List Field} {done all : List FieldDef}
    (h : addAll origin done fields = .ok all) :
    ∃ more, all = done ++ more ∧ ∀ f ∈ more, f.name ≠ reservedField ∧ ∃ g ∈ fields, f = FieldDef.ofField origin g := by
  induction fields generalizing done with
  | nil =>
    cases h
    exact ⟨[], (List.append_nil _).symm, by simp⟩
  | cons g rest ih =>
    have hrest : ∀ done, addAll origin done rest = .ok all → ∃ more, all = done ++ more ∧
        ∀ f ∈ more, f.name ≠ reservedField ∧ ∃ g' ∈ g :: rest, f = FieldDef.ofField origin g' := by
      intro done h
      obtain ⟨more, heq, hmore⟩ := ih h
      refine ⟨more, heq, fun f hf => ⟨(hmore f hf).1, ?_⟩⟩
      obtain ⟨g', hg', hfg⟩ := (hmore f hf).2
      exact ⟨g', List.mem_cons_of_mem _ hg', hfg⟩
    unfold addAll at h
    split at h
    · split at h
      · exact hrest _ h
      · cases h
    rename_i hname
    split at h
    · exact hrest _ h
    obtain ⟨more, rfl, hmore⟩ := hrest _ h
    refine ⟨FieldDef.ofField origin g :: more, by simp, ?_⟩
    intro f hf
    rcases List.mem_cons.1 hf with rfl | hf
    · exact ⟨fun heq => hname (beq_iff_eq.2 heq), g, List.mem_cons_self, rfl⟩
    · exact hmore f hf

theorem addContributors_eq_ok {p : Provider σ} (keeps : p.Keeps Inv Good) {contributors : List SymbolRef}
    {done all : List FieldDef} {s s' : σ} (good : Inv s)
    (h : (addContributors p done contributors).runFrom s = (.ok all, s')) :
    (∃ more, all = done ++ more ∧ ∀ f ∈ more, f.name ≠ reservedField ∧
        ∃ r ∈ contributors, ∃ manifest, Good r manifest ∧ ∃ g ∈ manifest.fields, f = FieldDef.ofField r g) ∧ Inv s' := by
  induction contributors generalizing done s with
  | nil =>
    cases h
    exact ⟨⟨[], (List.append_nil _).symm, by simp⟩, good⟩
  | cons r rest ih =>
    obtain ⟨manifest, u, hmanifest, h⟩ := Act.bind_eq_ok.1 h
    obtain ⟨next, v, hnext, h⟩ := Act.bind_eq_ok.1 h
    rw [Act.runFrom_ofExcept, Prod.mk.injEq] at hnext
    obtain ⟨hnext, rfl⟩ := hnext
    have hu := keeps.manifest r s good
    rw [hmanifest] at hu
    obtain ⟨here, rfl, hhere⟩ := addAll_eq_ok hnext
    obtain ⟨⟨more, rfl, hmore⟩, hs⟩ := ih hu h
    refine ⟨⟨here ++ more, List.append_assoc _ _ _, ?_⟩, hs⟩
    intro f hf
    rcases List.mem_append.1 hf with hf | hf
    · exact ⟨(hhere f hf).1, r, List.mem_cons_self, manifest, keeps.good good hmanifest, (hhere f hf).2⟩
    · obtain ⟨hname, x, hx, hfx⟩ := hmore f hf
      exact ⟨hname, x, List.mem_cons_of_mem _ hx, hfx⟩

end Fields

/-! ## Members -/

/-- A collection of members of contributors that were served with good manifests. -/
structure MemberMap.Sound (participants : List SymbolRef) (Good : SymbolRef → Manifest → Prop) (m : MemberMap) : Prop where
  distinct : m.keys.Nodup
  source : ∀ e ∈ m, ∀ d ∈ e.2, d.1 ∈ participants ∧ d.2.name = e.1 ∧
    ∃ manifest role, Good d.1 manifest ∧ d.2 ∈ manifest.eligibleMembers role

namespace MemberMap

variable {participants : List SymbolRef} {m : MemberMap}

theorem Sound.nil : Sound participants Good [] :=
  ⟨List.nodup_nil, fun _ he => absurd he List.not_mem_nil⟩

theorem Sound.add (hm : m.Sound participants Good) {r : SymbolRef} {s : Signature} (hr : r ∈ participants)
    {manifest : Manifest} {role : Role} (good : Good r manifest) (hs : s ∈ manifest.eligibleMembers role) :
    (m.add r s).Sound participants Good := by
  refine ⟨Entries.nodup_keys_put hm.distinct _ _, ?_⟩
  intro e he d hd
  rcases Entries.mem_put he with he | rfl
  · exact hm.source e he d hd
  rcases List.mem_append.1 hd with hd | hd
  · cases hget : m.get? s.name with
    | none =>
      rw [hget] at hd
      exact absurd hd List.not_mem_nil
    | some definitions =>
      rw [hget] at hd
      exact hm.source _ (Entries.mem_of_get? hget) d hd
  · rw [List.mem_singleton] at hd
    subst hd
    exact ⟨hr, rfl, manifest, role, good, hs⟩

theorem Sound.addMembers (hm : m.Sound participants Good) {r : SymbolRef} (hr : r ∈ participants) {manifest : Manifest}
    {role : Role} (good : Good r manifest) {members : List Signature} (hs : members ⊆ manifest.eligibleMembers role) :
    (members.foldl (fun m s => m.add r s) m).Sound participants Good := by
  induction members generalizing m with
  | nil => exact hm
  | cons s rest ih =>
    obtain ⟨hs, hrest⟩ := List.cons_subset.1 hs
    exact ih (hm.add hr good hs) hrest

end MemberMap

theorem Blueprint.memberMap_eq_ok {p : Provider σ} (keeps : p.Keeps Inv Good) {participants contributors : List SymbolRef}
    {role : Role} {m all : MemberMap} {t t' : Planning σ} (hm : m.Sound participants Good)
    (hsub : contributors ⊆ participants) (good : Inv t.provider)
    (h : (memberMap p role m contributors).runFrom t = (.ok all, t')) :
    all.Sound participants Good ∧ Inv t'.provider := by
  induction contributors generalizing role m t with
  | nil =>
    cases h
    exact ⟨hm, good⟩
  | cons r rest ih =>
    obtain ⟨hr, hrest⟩ := List.cons_subset.1 hsub
    obtain ⟨members, u, hmembers, h⟩ := Act.bind_eq_ok.1 h
    obtain ⟨⟨manifest, hgood, rfl⟩, hu⟩ := Planner.eligibleMembers_eq_ok keeps good hmembers
    exact ih (hm.addMembers hr hgood (List.Subset.refl _)) hrest hu h

/-! ## The whole plan -/

namespace Blueprint

theorem planContext_eq_ok {p : Provider σ} {d : Defaults} {strict : Bool} {q : Request} {x : Mix} {members : MemberMap}
    {c : Context} {t t' : Planning σ} (h : (planContext p d strict q x members).runFrom t = (.ok c, t')) :
    c.composite = q.name ∧ c.base = x.base ∧ c.members = members := by
  obtain ⟨parsed, u, -, h⟩ := Act.bind_eq_ok.1 h
  obtain ⟨specs, u, -, h⟩ := Act.bind_eq_ok.1 h
  obtain ⟨beforeNames, u, -, h⟩ := Act.bind_eq_ok.1 h
  obtain ⟨before, u, -, h⟩ := Act.bind_eq_ok.1 h
  obtain ⟨afterNames, u, -, h⟩ := Act.bind_eq_ok.1 h
  obtain ⟨after, u, -, h⟩ := Act.bind_eq_ok.1 h
  cases h
  exact ⟨rfl, rfl, rfl⟩

/-- What holds of every plan: it is made of the contributors and of what their manifests say. -/
structure Outline.Sound (Good : SymbolRef → Manifest → Prop) (q : Request) (o : Outline) : Prop where
  name : Text.isFreeName q.name = true
  headerName : o.header.name = q.name
  headerBase : o.header.base = o.mix.base.path
  extraBases : ∀ c ∈ o.header.extraBases, ∃ r ∈ o.extra, c = r.path
  composite : o.context.composite = q.name
  participants : (o.mix.participants.map SymbolRef.path).Nodup
  fields : ∃ copied, o.fields = Fields.reserved o.mix.base o.mix.mixins o.header.capabilitySets :: copied ∧
    ∀ f ∈ copied, f.name ≠ reservedField ∧ ∃ r ∈ o.mix.participants, f.origin = r.path
  members : o.context.members.Sound o.mix.participants Good
  methods : ∀ m ∈ o.methods, ∃ definitions, (m.name, definitions) ∈ o.context.members ∧
    m.PlannedFrom o.context definitions
  names : (o.methods.map MethodDef.name).Nodup

/-- The stages of a plan, one after another. -/
theorem runs_of_outline {p : Provider σ} {d : Defaults} {strict : Bool} {q : Request} {o : Outline} {t t' : Planning σ}
    (h : (outline p d strict q).runFrom t = (.ok o, t')) : Text.isFreeName q.name = true ∧ ∃ u v w x y,
      (resolveMix p q).runFrom t = (.ok o.mix, u) ∧
      (planHeader p q.name o.mix).runFrom u = (.ok (o.header, o.extra), v) ∧
      (Planner.ask (Fields.synthesize p o.mix.base o.mix.mixins o.header.capabilitySets)).runFrom v = (.ok o.fields, w) ∧
      (memberMap p .base [] o.mix.participants).runFrom w = (.ok o.context.members, x) ∧
      (planContext p d strict q o.mix o.context.members).runFrom x = (.ok o.context, y) ∧
      (planMethods strict o.context o.context.members).runFrom y = (.ok o.methods, t') := by
  unfold outline at h
  split at h
  · cases h
  rename_i hname
  obtain ⟨mix, u, hmix, h⟩ := Act.bind_eq_ok.1 h
  obtain ⟨⟨header, extra⟩, v, hheader, h⟩ := Act.bind_eq_ok.1 h
  obtain ⟨fields, w, hfields, h⟩ := Act.bind_eq_ok.1 h
  obtain ⟨members, x, hmembers, h⟩ := Act.bind_eq_ok.1 h
  obtain ⟨context, y, hcontext, h⟩ := Act.bind_eq_ok.1 h
  obtain ⟨methods, z, hmethods, h⟩ := Act.bind_eq_ok.1 h
  cases h
  obtain ⟨-, -, rfl⟩ := planContext_eq_ok hcontext
  exact ⟨by simpa using hname, u, v, w, x, y, hmix, hheader, hfields, hmembers, hcontext, hmethods⟩

theorem outline_eq_ok {p : Provider σ} (keeps : p.Keeps Inv Good) {d : Defaults} {strict : Bool} {q : Request}
    {o : Outline} {t t' : Planning σ} (good : Inv t.provider)
    (h : (outline p d strict q).runFrom t = (.ok o, t')) : o.Sound Good q := by
  obtain ⟨hname, u, v, w, x, y, hmix, hheader, hfields, hmembers, hcontext, hmethods⟩ := runs_of_outline h
  obtain ⟨hnodup, good⟩ := resolveMix_eq_ok keeps good hmix
  obtain ⟨hheaderName, hbase, hextra, good⟩ := planHeader_eq_ok keeps good hheader
  obtain ⟨hfields, good⟩ := Fields.addContributors_eq_ok keeps good (Planner.ask_eq_ok hfields)
  obtain ⟨hmembers, -⟩ := memberMap_eq_ok keeps MemberMap.Sound.nil (List.Subset.refl _) good hmembers
  exact
    { name := hname
      headerName := hheaderName
      headerBase := hbase
      extraBases := hextra
      composite := (planContext_eq_ok hcontext).1
      participants := hnodup
      fields := by
        obtain ⟨copied, heq, hcopied⟩ := hfields
        refine ⟨copied, heq, fun f hf => ⟨(hcopied f hf).1, ?_⟩⟩
        obtain ⟨r, hr, -, -, g, -, hfg⟩ := (hcopied f hf).2
        exact ⟨r, hr, hfg ▸ rfl⟩
      members := hmembers
      methods := fun m hm => Context.plannedFrom_of_mem ((planMethods_eq hmethods).1 ▸ hm)
      names := by
        rw [(planMethods_eq hmethods).1, Context.names_flatMap_methodsOf]
        exact hmembers.distinct.sublist (List.filter_sublist.map Prod.fst) }

/-- A blueprint that is built comes of a plan whose symbols are all claimed. -/
theorem build_eq_ok {p : Provider σ} {d : Defaults} {strict : Bool} {q : Request} {b : Blueprint} {t t' : Planning σ}
    (h : (build p d strict q).runFrom t = (.ok b, t')) :
    ∃ o u claims, (outline p d strict q).runFrom t = (.ok o, u) ∧ claimsOf p d o u.provider = .ok claims ∧
      b = ofClaims o claims := by
  obtain ⟨o, u, ho, h⟩ := Act.bind_eq_ok.1 h
  obtain ⟨now, u', hnow, h⟩ := Act.bind_eq_ok.1 h
  cases hnow
  obtain ⟨claims, v, hclaims, h⟩ := Act.bind_eq_ok.1 h
  rw [Act.runFrom_ofExcept, Prod.mk.injEq] at hclaims
  obtain ⟨_, w, _, h⟩ := Act.bind_eq_ok.1 h
  cases h
  exact ⟨o, u, claims, ho, hclaims.1, rfl⟩

/-- A build is a plan, whose claims are then collected. -/
theorem build_of_outline {p : Provider σ} {d : Defaults} {strict : Bool} {q : Request} {t u : Planning σ} {o : Outline}
    (h : (outline p d strict q).runFrom t = (.ok o, u)) :
    (build p d strict q).runFrom t = match claimsOf p d o u.provider with
      | .ok claims => (.ok (ofClaims o claims), { u with notices := u.notices ++ [.built q.name o.methods.length] })
      | .error e => (.error e, u) := by
  unfold build
  rw [Act.runFrom_bind, h]
  dsimp only
  rw [Act.runFrom_bind, Act.runFrom_get]
  dsimp only
  rw [Act.runFrom_bind, Act.runFrom_ofExcept]
  cases claimsOf p d o u.provider <;> rfl

theorem build_of_outline_error {p : Provider σ} {d : Defaults} {strict : Bool} {q : Request} {t u : Planning σ}
    {e : Failure} (h : (outline p d strict q).runFrom t = (.error e, u)) :
    (build p d strict q).runFrom t = (.error e, u) := by
  unfold build
  rw [Act.runFrom_bind, h]

end Blueprint

end Amalgam
