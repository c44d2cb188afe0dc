import Amalgam.Proofs.Blueprint.Built
import Amalgam.Proofs.Session.Seed
import Amalgam.Proofs.Source.Names
import Amalgam.Proofs.World.Declaring
import Amalgam.Proofs.World.Serving

/-!
# Where the methods and fields of a composite come from

Once its contributors are resolved, a plan reads the manifest of each off the class that it was resolved to
(`Roster.Reads`). So the signature of a method is what the class of its reference declares, and the code of the composite
finds that class under the name of the reference (`Session.takenFrom_of_build`). Its fields are declared by classes just so
(`Session.fieldFrom_of_build`).
-/

namespace Amalgam

namespace Roster

variable {w : World} {start c c' : Roster}

/-- All manifests are read off the classes that their paths stand for, and what was claimed at the start is kept. -/
structure Reads (w : World) (start c : Roster) : Prop where
  grown : start.Extends c
  manifests : ∀ e ∈ c.manifests, ∃ id r sets, c.classes.get? e.1 = some id ∧ e.2 = w.inspect id r sets

/-- A manifest is read off the class that a path stands for at the start, if there is one. -/
def ReadOff (w : World) (start : Roster) (r : SymbolRef) (m : Manifest) : Prop :=
  ∀ id, start.classes.get? r.path = some id → ∃ r' sets, m = w.inspect id r' sets

theorem Reads.new (h : c.manifests = []) : Reads w c c :=
  ⟨Extends.refl c, fun _ he => absurd (h ▸ he) List.not_mem_nil⟩

theorem Reads.of_extends (h : Reads w start c) (hext : c.Extends c') (hmanifests : c'.manifests = c.manifests) :
    Reads w start c' := by
  refine ⟨h.grown.trans hext, fun e he => ?_⟩
  obtain ⟨id, r, sets, hid, hm⟩ := h.manifests e (hmanifests ▸ he)
  exact ⟨id, r, sets, hext _ _ hid, hm⟩

theorem Reads.manifest (h : Reads w start c) (r : SymbolRef) : Reads w start ((manifest w r).runFrom c).2 := by
  generalize hrun : (Roster.manifest w r).runFrom c = done
  obtain ⟨outcome, d⟩ := done
  cases outcome with
  | error e =>
    rw [(manifest_eq_error hrun).1]
    exact h
  | ok m =>
    rcases manifest_cases hrun with ⟨-, rfl⟩ | ⟨-, ⟨id, sets, hid, hm⟩, hext, hmanifests, -⟩
    · exact h
    · refine ⟨h.grown.trans hext, fun e he => ?_⟩
      rw [hmanifests] at he
      rcases Entries.mem_put he with he | rfl
      · obtain ⟨id', r', sets', hid', hm'⟩ := h.manifests e he
        exact ⟨id', r', sets', hext _ _ hid', hm'⟩
      · exact ⟨id, r, sets, hid, hm⟩

/-- What is served of a class that was claimed at the start is read off that class, then or before. -/
theorem Reads.readOff (h : Reads w start c) {r : SymbolRef} {m : Manifest}
    (hrun : (Roster.manifest w r).runFrom c = (.ok m, c')) : ReadOff w start r m := by
  intro id hid
  rcases manifest_cases hrun with ⟨hfound, rfl⟩ | ⟨-, ⟨id', sets, hid', hm⟩, hext, -, -⟩
  · obtain ⟨id', r', sets, hid', hm⟩ := h.manifests _ (Entries.mem_of_get? hfound)
    rw [h.grown _ _ hid] at hid'
    cases hid'
    exact ⟨r', sets, hm⟩
  · rw [hext _ _ (h.grown _ _ hid)] at hid'
    cases hid'
    exact ⟨r, sets, hm⟩

theorem keeps_reads (w : World) (start : Roster) : (Provider.live w).Keeps (Reads w start) (ReadOff w start) where
  resolve t c h := h.of_extends (resolve_extends c t c (Extends.refl c)) (manifests_after_resolve c t)
  manifest r _ h := h.manifest r
  good h hrun := h.readOff hrun

end Roster

/-! ## The member of a method -/

/-- A class declares the member that a method is planned for, with its signature, and lets it be taken. -/
structure MethodDef.TakenFrom (w : World) (id : Nat) (m : MethodDef) : Prop where
  declared : w.declaration? id m.name = some (.member m.signature)
  eligible : ∃ role, m.signature.isEligible role = true

namespace World

variable {w : World}

theorem visibility_of_declared {owners : List String} {c : Class} {name : String} {s : Signature}
    (h : w.declared owners c name = .member s) : s.visibility = nameVisibility name owners := by
  unfold declared fieldOf at h
  dsimp only at h
  split at h
  · split at h
    · cases h
      rfl
    · cases h
  · cases h
    rfl
  · split at h <;> cases h
  · split at h <;> cases h
  · split at h
    · split at h <;> cases h
    · cases h

end World

/-- Owners can hide a name, and change nothing else of its visibility. -/
theorem nameVisibility_eq_iff {name : String} {owners owners' : List String} (h : nameVisibility name owners ≠ .hidden) :
    nameVisibility name owners' = nameVisibility name owners ↔ nameVisibility name owners' ≠ .hidden := by
  constructor
  · intro heq
    rwa [heq]
  · intro h'
    unfold nameVisibility at h h' ⊢
    split
    · rfl
    · rename_i hstart
      rw [if_neg hstart] at h h'
      dsimp only at h h' ⊢
      rw [if_neg fun hmarked => h (if_pos hmarked), if_neg fun hmarked => h' (if_pos hmarked)]

theorem nameVisibility_of_private {name : String} (h : Text.isPrivateName name = true) (owners : List String) :
    nameVisibility name owners = .hidden := by
  unfold Text.isPrivateName at h
  simp only [Bool.and_eq_true, Bool.not_eq_true'] at h
  unfold nameVisibility
  rw [if_pos h.1.1, if_neg (by rw [h.1.2]; decide)]

namespace MethodDef.TakenFrom

variable {w : World} {id : Nat} {m : MethodDef} (h : m.TakenFrom w id)

include h

theorem visibility : m.signature.visibility = nameVisibility m.name (w.ownersOf id) := by
  obtain ⟨-, a, -, hdeclared⟩ := World.exists_declared_of_declaration? h.declared
  exact World.visibility_of_declared hdeclared

theorem visible : nameVisibility m.name (w.ownersOf id) ≠ .hidden := by
  obtain ⟨role, heligible⟩ := h.eligible
  rw [← h.visibility]
  simp only [Signature.isEligible, Bool.and_eq_true, bne_iff_ne] at heligible
  exact heligible.1.1.2

theorem name_eq : m.signature.name = m.name := by
  obtain ⟨-, a, -, hdeclared⟩ := World.exists_declared_of_declaration? h.declared
  exact World.name_of_declared (congrArg World.Declared.name? hdeclared)

/-- The name of a method is the same inside any class. -/
theorem privateName_eq (owner : String) : Text.privateName owner m.name = m.name := by
  by_contra hne
  exact h.visible (nameVisibility_of_private (Text.privateName_of_ne hne).1 _)

theorem not_bookkeeping : m.name ∉ World.bookkeepingNames := (World.exists_declared_of_declaration? h.declared).1

theorem not_constructor : m.name ∉ constructorNames := by
  obtain ⟨role, heligible⟩ := h.eligible
  simp only [Signature.isEligible, Signature.isConstructor, Bool.and_eq_true, Bool.not_eq_true', h.name_eq] at heligible
  intro hmem
  rw [List.contains_iff_mem.2 hmem] at heligible
  cases heligible.1.1.1.2

end MethodDef.TakenFrom

/-! ## The methods and fields of a plan -/

namespace Session

open Blueprint

variable {w : World} {d : Defaults} {strict : Bool} {q : Request} {b : Blueprint} {t' : Planning Roster} {m : MethodDef}

/-- A method of a composite of live classes comes of the class of its reference, and its code finds that class. -/
theorem takenFrom_of_build (hb : (build (Provider.live w) d strict q).runFrom { provider := {} } = (.ok b, t'))
    (hm : m ∈ b.methods) : ∃ id, m.TakenFrom w id ∧ b.bindings.get? m.reference = some (.cls id) ∧
      ∀ names, seed w b = .ok names →
        ∃ name, b.aliases.get? m.reference = some name ∧ names.get? name = some (.cls id) := by
  obtain ⟨o, u, claims, ho, hclaims, rfl⟩ := build_eq_ok hb
  obtain ⟨v, hmix, hmembers⟩ := members_of_outline ho
  obtain ⟨hmanifests, hpairs⟩ := pairs_of_resolveMix rfl hmix
  obtain ⟨hsound, hreads⟩ := hmembers (Roster.keeps_reads w v.provider) (Roster.Reads.new hmanifests)
  have hplanned := (outline_eq_ok (Provider.keeps_trivial _) trivial ho).methods m hm
  obtain ⟨definitions, hdefinitions, planned⟩ := hplanned
  obtain ⟨r, rest, rfl, href⟩ := planned.reference
  obtain ⟨hr, hname, manifest, role, good, heligible⟩ :=
    hsound.source _ hdefinitions (r, m.signature) List.mem_cons_self
  obtain ⟨type, -, id, -, hid⟩ := Outcome.exists_mem_of_forall₂ hpairs.flip hr
  obtain ⟨r', sets, rfl⟩ := good id hid
  obtain ⟨hmem, hrole⟩ := List.mem_filter.1 heligible
  have hdeclared := World.mem_members_inspect.1 hmem
  have hid := hreads.grown _ _ hid
  rw [show m.signature.name = m.name from hname] at hdeclared
  refine ⟨id, ⟨hdeclared, role, hrole⟩, ?_, fun names hseed => ?_⟩
  · rw [href]
    exact (claims_of_mem hclaims (List.mem_map_of_mem (List.mem_append_left _ hr)) hid).2
  · rw [href]
    exact get?_seed_contributor hclaims hseed hr hid

/-- A live object that a blueprint binds is found in its code under the name of its path. -/
theorem get?_seed_of_binding (hb : (build (Provider.live w) d strict q).runFrom { provider := {} } = (.ok b, t'))
    {names : Entries Value} (hseed : seed w b = .ok names) {path name : String} {handle : Handle}
    (hbinding : b.bindings.get? path = some handle) (hname : b.aliases.get? path = some name) :
    names.get? name = some (valueOf handle) := by
  obtain ⟨o, u, claims, -, -, rfl⟩ := build_eq_ok hb
  have hkey : path ∈ (symbolsOf claims).keys := mem_keys_ofClaims.1 (Entries.mem_keys_of_get? hname)
  obtain ⟨r, hr⟩ := Option.ne_none_iff_exists'.1 (mt (Entries.get?_eq_none_iff _ _).1 (not_not.2 hkey))
  obtain ⟨name', v, hname', hv, hget⟩ := get?_seed hseed hr
  rw [hname] at hname'
  cases hname'
  simp only [valueAt, hbinding] at hv
  cases hv
  exact hget

/-- The name of the library's reader is private to no class. -/
theorem privateName_reader (hb : (build (Provider.live w) d strict q).runFrom { provider := {} } = (.ok b, t'))
    {name : String} (hname : b.aliases.get? SymbolRef.parameterDefault.path = some name) (owner : String) :
    Text.privateName owner name = name := by
  obtain ⟨o, u, claims, -, -, rfl⟩ := build_eq_ok hb
  obtain ⟨r, -, hpath, n, rfl⟩ := Alias.assign_tried hname
  obtain rfl : r = .parameterDefault := SymbolRef.eq_of_path_eq hpath (by decide) (by decide)
  rw [show Alias.seed .parameterDefault = "parameter_default" from by decide +kernel]
  refine Text.privateName_eq_self ?_
  rintro ⟨rest, hrest⟩
  unfold Alias.nth at hrest
  split at hrest
  · exact absurd (List.cons.inj hrest).1 (by decide)
  · rw [String.toList_append, String.toList_append] at hrest
    exact absurd (List.cons.inj hrest).1 (by decide)

/-- A field of a composite of live classes, but for the reserved one, is what the class of its origin declares under its name. -/
theorem fieldFrom_of_build (hb : (build (Provider.live w) d strict q).runFrom { provider := {} } = (.ok b, t'))
    {f : FieldDef} (hf : f ∈ b.fields) (hname : f.name ≠ reservedField) :
    ∃ id r g, f = Fields.FieldDef.ofField r g ∧ w.declaration? id f.name = some (.field g) ∧
      b.bindings.get? f.origin = some (.cls id) := by
  obtain ⟨o, u, claims, ho, hclaims, rfl⟩ := build_eq_ok hb
  obtain ⟨v, hmix, hfields⟩ := fields_of_outline ho
  obtain ⟨v', hmix', hmembers⟩ := members_of_outline ho
  obtain rfl : v = v' := congrArg Prod.snd (hmix.symm.trans hmix')
  obtain ⟨hmanifests, hpairs⟩ := pairs_of_resolveMix rfl hmix
  have hkeeps := Roster.keeps_reads w v.provider
  obtain ⟨r, hr, manifest, good, g, hg, rfl⟩ := hfields hkeeps (Roster.Reads.new hmanifests) f hf hname
  obtain ⟨type, -, id, -, hid⟩ := Outcome.exists_mem_of_forall₂ hpairs.flip hr
  obtain ⟨r', sets, rfl⟩ := good id hid
  have hid := (hmembers hkeeps (Roster.Reads.new hmanifests)).2.grown _ _ hid
  exact ⟨id, r, g, rfl, World.mem_fields_inspect.1 hg,
    (claims_of_mem hclaims (List.mem_map_of_mem (List.mem_append_left _ hr)) hid).2⟩

/-- No two methods of a composite have one name. -/
theorem nodup_names_of_build (hb : (build (Provider.live w) d strict q).runFrom { provider := {} } = (.ok b, t')) :
    (b.methods.map MethodDef.name).Nodup :=
  IsBuilt.nodup_memberNames ⟨_, _, _, _, _, _, _, hb⟩

end Session

end Amalgam
