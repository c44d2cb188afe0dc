import Amalgam.Proofs.Blueprint.Rearranging

/-!
# Independent mixins commute

Two mixins are independent if no member may be taken from both of them and no field may be copied from both of them
(`Manifest.Independent`). Where two independent mixins stand side by side, their order does not matter to a plan from
manifests: both orders fail, or both give the same methods, fields, capability sets, bases and symbols, listed in another
order (`build_swap`). The contributors themselves differ in order only (`Mix.Swaps`), each member has the same definitions
in the same order (`alike_memberMap_swap`), and the fields copied are the same (`alike_addContributors_swap`).
-/

namespace Amalgam

variable {ms : List Manifest}

/-- No member may be taken from both as mixins, and no field may be copied from both; records never are. -/
structure Manifest.Independent (m m' : Manifest) : Prop where
  members : ∀ s ∈ m.eligibleMembers .mixin, ∀ s' ∈ m'.eligibleMembers .mixin, s.name ≠ s'.name
  fields : ∀ f ∈ m.fields, ∀ f' ∈ m'.fields, f.isStatic = false → f'.isStatic = false → f.name = f'.name →
    f.name = reservedField

/-! ## What given manifests serve -/

namespace Provider

/-- The manifest of what a caller gives for a class, if there is one. -/
def manifestFor? (ms : List Manifest) (t : TypeLike) : Option Manifest :=
  match ((ofManifests ms).resolve t).runFrom () with
  | (.ok r, _) => (table ms).get? r.path
  | (.error _, _) => none

/-- The manifest of a reference that is known. -/
def served (ms : List Manifest) (r : SymbolRef) : Manifest := ((table ms).get? r.path).getD { ref := r }

theorem manifest_of_has {r : SymbolRef} (h : (table ms).has r.path = true) (u : Unit) :
    ((ofManifests ms).manifest r).runFrom u = (.ok (served ms r), u) := by
  obtain ⟨m, hm⟩ := Option.isSome_iff_exists.1 h
  rw [served, hm]
  exact manifest_ofManifests hm u

theorem capabilitySets_of_has {r : SymbolRef} (h : (table ms).has r.path = true) (u : Unit) :
    ((ofManifests ms).capabilitySets r).runFrom u = (.ok (served ms r).capabilitySets, u) :=
  Act.bind_eq_ok.2 ⟨_, u, manifest_of_has h u, rfl⟩

theorem eligibleMembers_of_has {r : SymbolRef} (h : (table ms).has r.path = true) (role : Role) (u : Unit) :
    ((ofManifests ms).eligibleMembers r role).runFrom u = (.ok ((served ms r).eligibleMembers role), u) :=
  Act.bind_eq_ok.2 ⟨_, u, manifest_of_has h u, rfl⟩

theorem has_of_resolve {t : TypeLike} {r : SymbolRef} (h : (((ofManifests ms).resolve t).runFrom ()).1 = .ok r) :
    (table ms).has r.path = true := by
  obtain ⟨r', u, -, h⟩ := Act.bind_eq_ok.1 (show ((ofManifests ms).resolve t).runFrom () = (.ok r, ()) from Prod.ext h rfl)
  split at h
  · rename_i hhas
    cases h
    exact hhas
  · cases h

theorem manifestFor?_of_resolve {t : TypeLike} {r : SymbolRef} (h : (((ofManifests ms).resolve t).runFrom ()).1 = .ok r) :
    manifestFor? ms t = some (served ms r) := by
  obtain ⟨m, hm⟩ := Option.isSome_iff_exists.1 (has_of_resolve h)
  rw [manifestFor?, show ((ofManifests ms).resolve t).runFrom () = (.ok r, ()) from Prod.ext h rfl]
  dsimp only
  rw [served, hm]
  rfl

end Provider

open Provider (served table)

open Outcome (Both)

open Act (Alike alike_pure alike_throw alike_ofExcept)

variable {ε α β : Type}

/-- Without a state, the outcomes of a traversal are those of its items. -/
theorem Act.outcome_mapM (f : α → Act Unit β) (as : List α) :
    ((as.mapM f).runFrom ()).1 = as.mapM fun a => ((f a).runFrom ()).1 := by
  induction as with
  | nil => rfl
  | cons a as ih =>
    rw [List.mapM_cons, List.mapM_cons, runFrom_bind, ← ih]
    generalize (f a).runFrom () = done
    obtain ⟨r, u⟩ := done
    cases r with
    | error e => rfl
    | ok b =>
      dsimp only
      rw [runFrom_bind]
      generalize (as.mapM f).runFrom u = done
      obtain ⟨r, u⟩ := done
      cases r <;> rfl

theorem Act.ofExcept_bind {σ : Type} (x : Except Failure α) (f : α → Except Failure β) :
    (ofExcept (x >>= f) : Act σ β) = ofExcept x >>= fun a => ofExcept (f a) := by
  funext s
  cases x <;> rfl

theorem Planner.alike_ask {R : α → β → Prop} {x : Act Unit α} {y : Act Unit β}
    (h : Both R (x.runFrom ()).1 (y.runFrom ()).1) : Alike R (Planner.ask x) (Planner.ask y) := fun _ _ => h

/-- Steps that give known results. -/
theorem Act.alike_of_ok {R : α → β → Prop} {x : Planner Unit α} {y : Planner Unit β} {a : α} {b : β}
    (hx : ∀ t, (x.runFrom t).1 = .ok a) (hy : ∀ t, (y.runFrom t).1 = .ok b) (h : R a b) : Alike R x y := by
  intro s t
  rw [hx, hy]
  exact h

/-- Where two items change places, so do their results. -/
theorem Outcome.both_mapM_swap (f : α → Except ε β) (before : List α) (a a' : α) (after : List α) :
    Both (fun bs bs' => ∃ l b b' l', bs = l ++ b :: b' :: l' ∧ bs' = l ++ b' :: b :: l' ∧ f a = .ok b ∧ f a' = .ok b')
      ((before ++ a :: a' :: after).mapM f) ((before ++ a' :: a :: after).mapM f) := by
  simp only [List.mapM_append, List.mapM_cons]
  cases before.mapM f with
  | error e => trivial
  | ok l =>
    cases f a with
    | error e => cases f a' <;> trivial
    | ok b =>
      cases f a' with
      | error e => trivial
      | ok b' =>
        cases after.mapM f with
        | error e => trivial
        | ok l' => exact ⟨l, b, b', l', rfl, rfl, rfl, rfl⟩

/-- Headers that name the same classes, those other than the base in another order. -/
structure Header.Rearranges (h h' : Header) : Prop where
  name : h.name = h'.name
  base : h.base = h'.base
  mixins : h.mixins.Perm h'.mixins
  capabilitySets : h.capabilitySets.Perm h'.capabilitySets
  extraBases : h.extraBases.Perm h'.extraBases

namespace Blueprint

/-! ## Contributors -/

theorem repeated?_eq_none_iff {rs : List SymbolRef} : repeated? [] rs = none ↔ (rs.map SymbolRef.path).Nodup := by
  suffices ∀ seen, repeated? seen rs = none ↔ (rs.map SymbolRef.path).Nodup ∧ ∀ r ∈ rs, r.path ∉ seen by
    rw [this []]
    simp
  induction rs with
  | nil => simp [repeated?]
  | cons r rest ih =>
    intro seen
    unfold repeated?
    by_cases hr : seen.contains r.path = true
    · rw [if_pos hr]
      rw [List.contains_iff_mem] at hr
      simp [hr]
    · rw [if_neg hr, ih]
      rw [List.contains_iff_mem] at hr
      simp only [List.map_cons, List.nodup_cons, List.mem_cons, List.mem_map, forall_eq_or_imp, not_or, not_exists, not_and]
      constructor
      · rintro ⟨hnodup, hapart⟩
        exact ⟨⟨fun x hx he => (hapart x hx).1 he, hnodup⟩, hr, fun x hx => (hapart x hx).2⟩
      · rintro ⟨⟨hfresh, hnodup⟩, -, hapart⟩
        exact ⟨hnodup, fun x hx => ⟨fun he => hfresh x hx he, hapart x hx⟩⟩

/-- The same contributors, but for two independent mixins that have changed places. -/
structure Mix.Swaps (ms : List Manifest) (x x' : Mix) : Prop where
  base : x.base = x'.base
  mixins : ∃ l r r' l', x.mixins = l ++ r :: r' :: l' ∧ x'.mixins = l ++ r' :: r :: l' ∧
    (served ms r).Independent (served ms r')
  known : ∀ r ∈ x.participants, (table ms).has r.path = true

namespace Mix.Swaps

variable {x x' : Mix}

theorem perm_mixins (h : x.Swaps ms x') : x.mixins.Perm x'.mixins := by
  obtain ⟨l, r, r', l', hx, hx', -⟩ := h.mixins
  rw [hx, hx']
  exact (List.Perm.swap r' r l').append_left l

theorem perm (h : x.Swaps ms x') : x.participants.Perm x'.participants := by
  rw [participants, participants, h.base]
  exact h.perm_mixins.cons _

theorem known' (h : x.Swaps ms x') : ∀ r ∈ x'.participants, (table ms).has r.path = true := fun r hr =>
  h.known r (h.perm.mem_iff.2 hr)

end Mix.Swaps

variable {q : Request} {before after : List TypeLike} {a b : TypeLike}

theorem alike_resolveMix (independent : ∀ m m', Provider.manifestFor? ms a = some m →
    Provider.manifestFor? ms b = some m' → m.Independent m') : Alike (Mix.Swaps ms)
      (resolveMix (Provider.ofManifests ms) { q with mixins := before ++ a :: b :: after })
      (resolveMix (Provider.ofManifests ms) { q with mixins := before ++ b :: a :: after }) := by
  unfold resolveMix
  dsimp only
  rw [Planner.mapM_ask, Planner.mapM_ask]
  have hbase : Alike (fun r r' => r = r' ∧ (table ms).has r.path = true)
      (Planner.ask ((Provider.ofManifests ms).resolve q.base)) (Planner.ask ((Provider.ofManifests ms).resolve q.base)) :=
    Planner.alike_ask ((Outcome.both_refl (fun r => Eq.refl r) _).mono fun r r' hr _ h => ⟨h, Provider.has_of_resolve hr⟩)
  refine hbase.bind fun base base' hbase => ?_
  obtain ⟨rfl, hknown⟩ := hbase
  have hmixins : Alike (fun rs rs' => (∃ l r r' l', rs = l ++ r :: r' :: l' ∧ rs' = l ++ r' :: r :: l' ∧
        (served ms r).Independent (served ms r')) ∧ ∀ r ∈ rs, (table ms).has r.path = true)
      (Planner.ask ((before ++ a :: b :: after).mapM (Provider.ofManifests ms).resolve))
      (Planner.ask ((before ++ b :: a :: after).mapM (Provider.ofManifests ms).resolve)) := by
    refine Planner.alike_ask ?_
    rw [Act.outcome_mapM, Act.outcome_mapM]
    refine (Outcome.both_mapM_swap _ before a b after).mono fun rs rs' hrs _ h => ⟨?_, fun r hr => ?_⟩
    · obtain ⟨l, r, r', l', hl, hl', hr, hr'⟩ := h
      exact ⟨l, r, r', l', hl, hl', independent _ _ (Provider.manifestFor?_of_resolve hr)
        (Provider.manifestFor?_of_resolve hr')⟩
    · obtain ⟨t, -, ht⟩ := Outcome.exists_mem_of_forall₂ (Outcome.mapM_eq_ok.1 hrs).flip hr
      exact Provider.has_of_resolve ht
  refine hmixins.bind fun mixins mixins' hmixins => ?_
  obtain ⟨hswap, hall⟩ := hmixins
  have hswaps : Mix.Swaps ms ⟨base, mixins⟩ ⟨base, mixins'⟩ :=
    ⟨rfl, hswap, fun r hr => (List.mem_cons.1 hr).elim (fun h => h ▸ hknown) (hall r)⟩
  have hnodup : repeated? [] (base :: mixins) = none ↔ repeated? [] (base :: mixins') = none := by
    rw [repeated?_eq_none_iff, repeated?_eq_none_iff]
    exact (hswaps.perm.map SymbolRef.path).nodup_iff
  cases hx : repeated? [] (base :: mixins) with
  | none =>
    rw [hnodup.1 hx]
    exact alike_pure hswaps
  | some path =>
    cases hy : repeated? [] (base :: mixins') with
    | none =>
      rw [hnodup.2 hy] at hx
      cases hx
    | some path' => exact alike_throw _ _

/-! ## The header -/

/-- What is left of things in another order, once those with a name on a list are taken away. -/
theorem perm_filter_not_contains {as as' : List α} (h : as.Perm as') {names names' : List String} (hnames : names.Perm names')
    (nameOf : α → String) :
    (as.filter fun a => !names.contains (nameOf a)).Perm (as'.filter fun a => !names'.contains (nameOf a)) := by
  have hcontains : ∀ name, names.contains name = names'.contains name := fun name =>
    Bool.eq_iff_iff.2 (by rw [List.contains_iff_mem, List.contains_iff_mem, hnames.mem_iff])
  simp only [hcontains]
  exact h.filter _

theorem perm_union {sets sets' : List SymbolRef} (h : sets.Perm sets') : (union sets).Perm (union sets') :=
  (List.perm_ext_iff_of_nodup (nodup_union _) (nodup_union _)).2 fun r => by rw [mem_union, mem_union, h.mem_iff]

/-- A set that has no manifest counts as one that inherits none. -/
theorem outcome_setsAbove (ms : List Manifest) (set : SymbolRef) (t : Planning Unit) :
    ((setsAbove (Provider.ofManifests ms) set).runFrom t).1 = .ok (Provider.setsIn ms set) := by
  unfold Provider.setsIn
  cases h : (table ms).get? set.path with
  | some m =>
    have hsets : ((Provider.ofManifests ms).capabilitySets set).runFrom t.provider = (.ok m.capabilitySets, t.provider) :=
      Act.bind_eq_ok.2 ⟨m, t.provider, Provider.manifest_ofManifests h t.provider, rfl⟩
    rw [runFrom_setsAbove, Planner.runFrom_ask, hsets]
    rfl
  | none =>
    have hrefused : ((Provider.ofManifests ms).capabilitySets set).runFrom t.provider =
        (.error (.refusal (.noManifest set.path)), t.provider) := by
      unfold Provider.capabilitySets Provider.ofManifests
      dsimp only
      rw [h]
      rfl
    rw [runFrom_setsAbove, Planner.runFrom_ask, hrefused]
    rfl

theorem outcome_implied (sets : List SymbolRef) (t : Planning Unit) :
    ((implied (Provider.ofManifests ms) sets).runFrom t).1 =
      .ok ((sets.flatMap (Provider.setsIn ms)).map SymbolRef.path) := by
  induction sets generalizing t with
  | nil => rfl
  | cons set rest ih =>
    have hset := outcome_setsAbove ms set t
    rw [implied, Act.runFrom_bind, List.flatMap_cons, List.map_append]
    generalize (setsAbove (Provider.ofManifests ms) set).runFrom t = done at hset
    obtain ⟨r, u⟩ := done
    dsimp only at hset
    subst hset
    dsimp only
    have hrest := ih u
    rw [Act.runFrom_bind]
    generalize (implied (Provider.ofManifests ms) rest).runFrom u = done at hrest
    obtain ⟨r, v⟩ := done
    dsimp only at hrest
    subst hrest
    rfl

theorem alike_minimal {sets sets' : List SymbolRef} (h : sets.Perm sets') : Alike List.Perm
    (minimal (Provider.ofManifests ms) sets) (minimal (Provider.ofManifests ms) sets') := by
  have himplied := (h.flatMap_right (Provider.setsIn ms)).map SymbolRef.path
  refine (Act.alike_of_ok (outcome_implied sets) (outcome_implied sets') himplied).bind fun above above' habove => ?_
  exact alike_pure (perm_filter_not_contains h habove SymbolRef.path)

theorem outcome_served {rs : List SymbolRef} (known : ∀ r ∈ rs, (table ms).has r.path = true) (t : Planning Unit) :
    ((Planner.ask (rs.mapM (Provider.ofManifests ms).capabilitySets)).runFrom t).1 =
      .ok (rs.map fun r => (served ms r).capabilitySets) := by
  rw [Planner.runFrom_ask]
  show ((rs.mapM (Provider.ofManifests ms).capabilitySets).runFrom ()).1 = _
  rw [Act.outcome_mapM, Outcome.mapM_eq_ok, List.forall₂_map_right_iff, List.forall₂_same]
  exact fun r hr => congrArg Prod.fst (Provider.capabilitySets_of_has (known r hr) ())

theorem alike_planHeader {x x' : Mix} (h : x.Swaps ms x') (name : String) :
    Alike (fun r r' => Header.Rearranges r.1 r'.1 ∧ r.2.Perm r'.2) (planHeader (Provider.ofManifests ms) name x)
      (planHeader (Provider.ofManifests ms) name x') := by
  unfold planHeader
  rw [Planner.mapM_ask, Planner.mapM_ask]
  refine (Act.alike_of_ok (R := fun ss ss' => ss.Perm ss' ∧ ss.head? = ss'.head?) (outcome_served h.known)
    (outcome_served h.known') ⟨h.perm.map _, ?_⟩).bind fun ss ss' hss => ?_
  · rw [Mix.participants, Mix.participants, h.base]
    rfl
  obtain ⟨hperm, hhead⟩ := hss
  have hsets := perm_union hperm.flatten
  have hown : (x.base.path :: (ss.headD []).map SymbolRef.path).Perm
      (x'.base.path :: (ss'.headD []).map SymbolRef.path) := by
    rw [List.headD_eq_head?_getD, List.headD_eq_head?_getD, hhead, h.base]
  refine (alike_minimal (perm_filter_not_contains hsets hown SymbolRef.path)).bind fun extra extra' hextra =>
    alike_pure ⟨?_, hextra⟩
  have hsetPaths := hsets.map SymbolRef.path
  have hbase := perm_filter_not_contains hsetPaths (hextra.map SymbolRef.path) id
  exact
    { name := rfl
      base := congrArg SymbolRef.path h.base
      mixins := h.perm_mixins.map SymbolRef.path
      capabilitySets := hsetPaths
      extraBases := perm_filter_not_contains hsetPaths hbase id }

end Blueprint

/-! ## Fields -/

namespace Fields

/-- Whether a contributor brings along a reserved field that is no record. -/
def refuses (fields : List Field) : Bool := fields.any fun f => f.name == reservedField && !isMetadataText f.default

/-- The fields that a contributor adds to those of the names taken. -/
def added (origin : SymbolRef) : (taken : List String) → List Field → List FieldDef
  | _, [] => []
  | taken, f :: rest =>
    if f.name == reservedField || f.isStatic || taken.contains f.name then added origin taken rest
    else FieldDef.ofField origin f :: added origin (taken ++ [f.name]) rest

theorem addAll_eq (origin : SymbolRef) (done : List FieldDef) (fields : List Field) :
    addAll origin done fields = if refuses fields = true then .error (.refusal (.reservedField origin.path))
      else .ok (done ++ added origin (done.map FieldDef.name) fields) := by
  induction fields generalizing done with
  | nil => simp [addAll, refuses, added]
  | cons f rest ih =>
    have hrefuses : refuses (f :: rest) = (f.name == reservedField && !isMetadataText f.default || refuses rest) :=
      List.any_cons
    rw [addAll, added, hrefuses]
    cases hname : f.name == reservedField with
    | true => by_cases hrecord : isMetadataText f.default = true <;> simp [hrecord, ih]
    | false =>
      rw [Bool.false_and, Bool.false_or, Bool.false_or, if_neg (by decide)]
      by_cases hskip : (f.isStatic || (done.map FieldDef.name).contains f.name) = true
      · rw [if_pos hskip, if_pos hskip, ih]
      · rw [if_neg hskip, if_neg hskip, ih, List.map_append, List.append_assoc]
        rfl

variable {origin : SymbolRef} {fields : List Field}

/-- What is added is a field that is copied. -/
theorem mem_added {taken : List String} {g : FieldDef} (h : g ∈ added origin taken fields) :
    ∃ f ∈ fields, f.isStatic = false ∧ f.name ≠ reservedField ∧ g.name = f.name := by
  induction fields generalizing taken with
  | nil => cases h
  | cons f rest ih =>
    unfold added at h
    split at h
    · obtain ⟨f', hf', hcopied⟩ := ih h
      exact ⟨f', List.mem_cons_of_mem _ hf', hcopied⟩
    · rename_i hkeep
      rcases List.mem_cons.1 h with rfl | h
      · simp only [Bool.or_eq_true, beq_iff_eq, not_or, Bool.not_eq_true] at hkeep
        exact ⟨f, List.mem_cons_self, hkeep.1.2, hkeep.1.1, rfl⟩
      · obtain ⟨f', hf', hcopied⟩ := ih h
        exact ⟨f', List.mem_cons_of_mem _ hf', hcopied⟩

/-- Of the names taken, only those of fields that could be copied matter. -/
theorem added_congr {taken taken' : List String}
    (h : ∀ f ∈ fields, f.isStatic = false → f.name ≠ reservedField → (f.name ∈ taken ↔ f.name ∈ taken')) :
    added origin taken fields = added origin taken' fields := by
  induction fields generalizing taken taken' with
  | nil => rfl
  | cons f rest ih =>
    obtain ⟨hf, hrest⟩ := List.forall_mem_cons.1 h
    rw [added, added]
    by_cases hcopied : f.isStatic = false ∧ f.name ≠ reservedField
    · have hcontains : taken.contains f.name = taken'.contains f.name := Bool.eq_iff_iff.2 (by
        rw [List.contains_iff_mem, List.contains_iff_mem, hf hcopied.1 hcopied.2])
      have hnext : added origin (taken ++ [f.name]) rest = added origin (taken' ++ [f.name]) rest :=
        ih fun f' hf' hstatic hname => by rw [List.mem_append, List.mem_append, hrest f' hf' hstatic hname]
      rw [hcontains, ih hrest, hnext]
    · have hskip : (f.name == reservedField || f.isStatic) = true := by
        rw [Bool.or_eq_true, beq_iff_eq]
        grind
      rw [hskip, Bool.true_or, Bool.true_or, if_pos rfl, if_pos rfl, ih hrest]

/-- The same fields in another order, the records of the contributors apart. -/
def Rearranged (fs fs' : List FieldDef) : Prop :=
  (fs.filter fun f => f.name != reservedField).Perm (fs'.filter fun f => f.name != reservedField)

namespace Rearranged

variable {fs fs' : List FieldDef}

theorem mem_names (h : Rearranged fs fs') {name : String} (hname : name ≠ reservedField) :
    name ∈ fs.map FieldDef.name ↔ name ∈ fs'.map FieldDef.name := by
  have hkept : ∀ gs : List FieldDef, name ∈ gs.map FieldDef.name ↔
      name ∈ (gs.filter fun f => f.name != reservedField).map FieldDef.name := by
    intro gs
    simp only [List.mem_map, List.mem_filter, bne_iff_ne]
    grind
  rw [hkept fs, hkept fs', (h.map FieldDef.name).mem_iff]

theorem append (h : Rearranged fs fs') {gs gs' : List FieldDef} (hgs : gs.Perm gs') :
    Rearranged (fs ++ gs) (fs' ++ gs') := by
  unfold Rearranged
  rw [List.filter_append, List.filter_append]
  exact List.Perm.append h (hgs.filter _)

theorem added_eq (h : Rearranged fs fs') (origin : SymbolRef) (fields : List Field) :
    added origin (fs.map FieldDef.name) fields = added origin (fs'.map FieldDef.name) fields :=
  added_congr fun _ _ _ hname => h.mem_names hname

theorem addAll (h : Rearranged fs fs') (origin : SymbolRef) (fields : List Field) :
    Both Rearranged (addAll origin fs fields) (Fields.addAll origin fs' fields) := by
  rw [addAll_eq, addAll_eq, h.added_eq]
  split
  · trivial
  · exact h.append (List.Perm.refl _)

/-- Contributors that have no field in common may be asked in either order. -/
theorem addAll_swap (h : Rearranged fs fs') {m m' : Manifest} (independent : m.Independent m') (r r' : SymbolRef) :
    Both Rearranged (Fields.addAll r fs m.fields >>= fun done => Fields.addAll r' done m'.fields)
      (Fields.addAll r' fs' m'.fields >>= fun done => Fields.addAll r done m.fields) := by
  have hm' : ∀ taken, added r' ((fs ++ added r taken m.fields).map FieldDef.name) m'.fields =
      added r' (fs'.map FieldDef.name) m'.fields := by
    intro taken
    refine added_congr fun f' hf' hstatic hname => ?_
    rw [List.map_append, List.mem_append, ← h.mem_names hname, or_iff_left]
    intro hmem
    obtain ⟨g, hg, heq⟩ := List.mem_map.1 hmem
    obtain ⟨f, hf, hstatic', -, hgf⟩ := mem_added hg
    have hsame : f.name = f'.name := hgf.symm.trans heq
    exact hname (hsame.symm.trans (independent.fields f hf f' hf' hstatic' hstatic hsame))
  have hm : ∀ taken, added r ((fs' ++ added r' taken m'.fields).map FieldDef.name) m.fields =
      added r (fs.map FieldDef.name) m.fields := by
    intro taken
    refine added_congr fun f hf hstatic hname => ?_
    rw [List.map_append, List.mem_append, ← h.mem_names hname, or_iff_left]
    intro hmem
    obtain ⟨g, hg, heq⟩ := List.mem_map.1 hmem
    obtain ⟨f', hf', hstatic', -, hgf⟩ := mem_added hg
    exact hname (independent.fields f hf f' hf' hstatic hstatic' (heq.symm.trans hgf))
  rw [addAll_eq r fs, addAll_eq r' fs']
  by_cases hx : refuses m.fields = true
  · by_cases hy : refuses m'.fields = true
    · rw [if_pos hx, if_pos hy]
      trivial
    · rw [if_pos hx, if_neg hy]
      show Both _ (.error _) (Fields.addAll r _ m.fields)
      rw [addAll_eq, if_pos hx]
      trivial
  · by_cases hy : refuses m'.fields = true
    · rw [if_neg hx, if_pos hy]
      show Both _ (Fields.addAll r' _ m'.fields) (.error _)
      rw [addAll_eq, if_pos hy]
      trivial
    · rw [if_neg hx, if_neg hy]
      show Both _ (Fields.addAll r' _ m'.fields) (Fields.addAll r _ m.fields)
      rw [addAll_eq, addAll_eq, if_neg hx, if_neg hy, hm, hm', List.append_assoc, List.append_assoc]
      exact h.append List.perm_append_comm

end Rearranged

theorem addContributors_cons_of_has {r : SymbolRef} (h : (table ms).has r.path = true) (done : List FieldDef)
    (rest : List SymbolRef) : addContributors (Provider.ofManifests ms) done (r :: rest) =
      Act.ofExcept (Fields.addAll r done (served ms r).fields) >>= fun done =>
        addContributors (Provider.ofManifests ms) done rest := by
  funext u
  show (addContributors (Provider.ofManifests ms) done (r :: rest)).runFrom u = _
  rw [addContributors, Act.runFrom_bind, Provider.manifest_of_has h]
  rfl

theorem alike_addContributors (rs : List SymbolRef) {fs fs' : List FieldDef} (h : Rearranged fs fs') : Alike Rearranged
    (addContributors (Provider.ofManifests ms) fs rs) (addContributors (Provider.ofManifests ms) fs' rs) := by
  induction rs generalizing fs fs' with
  | nil => exact alike_pure h
  | cons r rest ih =>
    refine Act.Alike.bind (fun _ _ => Outcome.both_refl (R := (· = ·)) (fun _ => rfl) _) fun m m' hm => ?_
    subst hm
    exact (alike_ofExcept (h.addAll r m.fields)).bind fun _ _ => ih

theorem alike_addContributors_swap (before after : List SymbolRef) {r r' : SymbolRef} (hr : (table ms).has r.path = true)
    (hr' : (table ms).has r'.path = true) (independent : (served ms r).Independent (served ms r'))
    {fs fs' : List FieldDef} (h : Rearranged fs fs') : Alike Rearranged
      (addContributors (Provider.ofManifests ms) fs (before ++ r :: r' :: after))
      (addContributors (Provider.ofManifests ms) fs' (before ++ r' :: r :: after)) := by
  induction before generalizing fs fs' with
  | nil =>
    rw [List.nil_append, List.nil_append, addContributors_cons_of_has hr, addContributors_cons_of_has hr']
    simp only [addContributors_cons_of_has hr, addContributors_cons_of_has hr', ← bind_assoc]
    refine Act.Alike.bind ?_ fun _ _ => alike_addContributors after
    rw [← Act.ofExcept_bind, ← Act.ofExcept_bind]
    exact alike_ofExcept (h.addAll_swap independent r r')
  | cons b before ih =>
    refine Act.Alike.bind (fun _ _ => Outcome.both_refl (R := (· = ·)) (fun _ => rfl) _) fun m m' hm => ?_
    subst hm
    exact (alike_ofExcept (h.addAll b m.fields)).bind fun _ _ => ih

end Fields

/-! ## Members -/

namespace MemberMap

/-- Maps that know the same names, with the same definitions in the same order. -/
structure Rearranged (m m' : MemberMap) : Prop where
  distinct : m.keys.Nodup
  distinct' : m'.keys.Nodup
  same : ∀ name, m.get? name = m'.get? name

theorem get?_addAll_congr {m m' : MemberMap} {name : String} (h : m.get? name = m'.get? name) (r : SymbolRef)
    (members : List Signature) : (members.foldl (fun m s => m.add r s) m).get? name =
      (members.foldl (fun m s => m.add r s) m').get? name := by
  rw [get?_addAll, get?_addAll, h]

/-- Names that a contributor does not define keep their definitions. -/
theorem get?_addAll_of_forall_ne {members : List Signature} {name : String} (h : ∀ s ∈ members, s.name ≠ name)
    (m : MemberMap) (r : SymbolRef) : (members.foldl (fun m s => m.add r s) m).get? name = m.get? name := by
  have hnone : members.filter (fun s => s.name == name) = [] := by simpa [List.filter_eq_nil_iff] using h
  rw [get?_addAll, hnone]
  rfl

theorem nodup_addAll {m : MemberMap} (h : m.keys.Nodup) (r : SymbolRef) (members : List Signature) :
    (members.foldl (fun m s => m.add r s) m).keys.Nodup := by
  induction members generalizing m with
  | nil => exact h
  | cons s rest ih => exact ih (Entries.nodup_keys_put h _ _)

namespace Rearranged

variable {m m' : MemberMap}

theorem perm (h : m.Rearranged m') : m.Perm m' := Entries.perm_of_get?_eq h.distinct h.distinct' h.same

theorem addAll (h : m.Rearranged m') (r : SymbolRef) (members : List Signature) :
    Rearranged (members.foldl (fun m s => m.add r s) m) (members.foldl (fun m s => m.add r s) m') where
  distinct := nodup_addAll h.distinct r members
  distinct' := nodup_addAll h.distinct' r members
  same name := get?_addAll_congr (h.same name) r members

/-- Contributors that define no name in common may be asked in either order. -/
theorem addAll_swap (h : m.Rearranged m') {members members' : List Signature}
    (apart : ∀ s ∈ members, ∀ s' ∈ members', s.name ≠ s'.name) (r r' : SymbolRef) :
    Rearranged (members'.foldl (fun m s => m.add r' s) (members.foldl (fun m s => m.add r s) m))
      (members.foldl (fun m s => m.add r s) (members'.foldl (fun m s => m.add r' s) m')) where
  distinct := nodup_addAll (nodup_addAll h.distinct r members) r' members'
  distinct' := nodup_addAll (nodup_addAll h.distinct' r' members') r members
  same name := by
    by_cases hname : ∃ s ∈ members, s.name = name
    · obtain ⟨s, hs, rfl⟩ := hname
      have hapart : ∀ s' ∈ members', s'.name ≠ s.name := fun s' hs' => (apart s hs s' hs').symm
      rw [get?_addAll_of_forall_ne hapart]
      refine get?_addAll_congr ?_ r members
      rw [get?_addAll_of_forall_ne hapart, h.same]
    · have hapart : ∀ s ∈ members, s.name ≠ name := fun s hs he => hname ⟨s, hs, he⟩
      rw [get?_addAll_of_forall_ne hapart]
      refine get?_addAll_congr ?_ r' members'
      rw [get?_addAll_of_forall_ne hapart, h.same]

end Rearranged

end MemberMap

namespace Blueprint

theorem memberMap_cons_of_has {r : SymbolRef} (h : (table ms).has r.path = true) (role : Role) (m : MemberMap)
    (rest : List SymbolRef) : memberMap (Provider.ofManifests ms) role m (r :: rest) =
      memberMap (Provider.ofManifests ms) .mixin
        (((served ms r).eligibleMembers role).foldl (fun m s => m.add r s) m) rest := by
  funext t
  show (memberMap (Provider.ofManifests ms) role m (r :: rest)).runFrom t = _
  rw [memberMap, Act.runFrom_bind, Planner.runFrom_ask, Provider.eligibleMembers_of_has h role t.provider]
  rfl

theorem alike_memberMap (role : Role) (rs : List SymbolRef) {m m' : MemberMap} (h : m.Rearranged m') :
    Alike MemberMap.Rearranged (memberMap (Provider.ofManifests ms) role m rs)
      (memberMap (Provider.ofManifests ms) role m' rs) := by
  induction rs generalizing role m m' with
  | nil => exact alike_pure h
  | cons r rest ih =>
    have hsame : Alike (fun ss ss' => ss = ss') (Planner.ask ((Provider.ofManifests ms).eligibleMembers r role))
        (Planner.ask ((Provider.ofManifests ms).eligibleMembers r role)) :=
      Planner.alike_ask (Outcome.both_refl Eq.refl _)
    refine hsame.bind fun members members' hmembers => ?_
    subst hmembers
    exact ih .mixin (h.addAll r members)

theorem alike_memberMap_swap {before after : List SymbolRef} {r r' : SymbolRef} (hr : (table ms).has r.path = true)
    (hr' : (table ms).has r'.path = true) (independent : (served ms r).Independent (served ms r')) {m m' : MemberMap}
    (h : m.Rearranged m') : Alike MemberMap.Rearranged
      (memberMap (Provider.ofManifests ms) .mixin m (before ++ r :: r' :: after))
      (memberMap (Provider.ofManifests ms) .mixin m' (before ++ r' :: r :: after)) := by
  induction before generalizing m m' with
  | nil =>
    rw [List.nil_append, List.nil_append, memberMap_cons_of_has hr, memberMap_cons_of_has hr', memberMap_cons_of_has hr',
      memberMap_cons_of_has hr]
    exact alike_memberMap .mixin after (h.addAll_swap independent.members r r')
  | cons b before ih =>
    have hsame : Alike (fun ss ss' => ss = ss') (Planner.ask ((Provider.ofManifests ms).eligibleMembers b .mixin))
        (Planner.ask ((Provider.ofManifests ms).eligibleMembers b .mixin)) :=
      Planner.alike_ask (Outcome.both_refl Eq.refl _)
    refine hsame.bind fun members members' hmembers => ?_
    subst hmembers
    exact ih (h.addAll b members)

/-! ## The whole plan -/

/-- The same plan but for two independent mixins that have changed places. -/
structure Outline.Swaps (ms : List Manifest) (o o' : Outline) : Prop where
  mix : o.mix.Swaps ms o'.mix
  header : Header.Rearranges o.header o'.header
  extra : o.extra.Perm o'.extra
  fields : Fields.Rearranged o.fields o'.fields
  context : o.context.Rearranges o'.context
  methods : o.methods.Perm o'.methods

variable {d : Defaults} {q : Request} {before after : List TypeLike} {a b : TypeLike}

theorem alike_outline (strict : Bool) (independent : ∀ m m', Provider.manifestFor? ms a = some m →
    Provider.manifestFor? ms b = some m' → m.Independent m') : Alike (Outline.Swaps ms)
      (outline (Provider.ofManifests ms) d strict { q with mixins := before ++ a :: b :: after })
      (outline (Provider.ofManifests ms) d strict { q with mixins := before ++ b :: a :: after }) := by
  unfold outline
  dsimp only
  split
  · exact fun _ _ => trivial
  refine (alike_resolveMix independent).bind fun mix mix' hmix => ?_
  refine (alike_planHeader hmix q.name).bind fun header header' hheader => ?_
  obtain ⟨l, r, r', l', hx, hx', hindependent⟩ := hmix.mixins
  have hr : (table ms).has r.path = true := hmix.known r (List.mem_cons_of_mem _ (by simp [hx]))
  have hr' : (table ms).has r'.path = true := hmix.known r' (List.mem_cons_of_mem _ (by simp [hx]))
  have hfields : Alike Fields.Rearranged
      (Fields.synthesize (Provider.ofManifests ms) mix.base mix.mixins header.1.capabilitySets)
      (Fields.synthesize (Provider.ofManifests ms) mix'.base mix'.mixins header'.1.capabilitySets) := by
    unfold Fields.synthesize
    rw [hx, hx', ← hmix.base]
    exact Fields.alike_addContributors_swap (mix.base :: l) l' hr hr' hindependent (List.Perm.refl _)
  refine (Planner.alike_ask (hfields () ())).bind fun fields fields' hfields => ?_
  have hmembers : Alike MemberMap.Rearranged (memberMap (Provider.ofManifests ms) .base [] mix.participants)
      (memberMap (Provider.ofManifests ms) .base [] mix'.participants) := by
    have hbase : (table ms).has mix.base.path = true := hmix.known _ List.mem_cons_self
    rw [Mix.participants, Mix.participants, ← hmix.base, memberMap_cons_of_has hbase, memberMap_cons_of_has hbase, hx, hx']
    refine alike_memberMap_swap hr hr' hindependent (MemberMap.Rearranged.addAll ?_ _ _)
    exact ⟨List.nodup_nil, List.nodup_nil, fun _ => rfl⟩
  refine hmembers.bind fun members members' hmembers => ?_
  refine (alike_planContext rfl rfl rfl rfl hmix.base hmix.perm strict hmembers.perm).bind fun context context' hcontext => ?_
  obtain ⟨hcontext, rfl, rfl⟩ := hcontext
  refine (alike_planMethods hcontext strict).bind fun methods methods' hmethods => alike_pure ?_
  exact ⟨hmix, hheader.1, hheader.2, hfields, hcontext, hmethods⟩

/-- What generated code relies on is decided by the methods, in whatever order. -/
theorem supportClaims_congr {methods methods' : List MethodDef} (h : methods.Perm methods') :
    supportClaims d methods = supportClaims d methods' := by
  unfold supportClaims
  rw [h.any_eq, h.any_eq, h.any_eq]

theorem both_claimsOf {o o' : Outline} (h : o.Swaps ms o') (u u' : Unit) :
    Both (fun claims claims' => ∀ path, (∃ c ∈ claims, c.1.path = path) ↔ ∃ c ∈ claims', c.1.path = path)
      (claimsOf (Provider.ofManifests ms) d o u) (claimsOf (Provider.ofManifests ms) d o' u') := by
  have hown := (h.mix.perm.append h.extra).map fun r => (r, (Provider.ofManifests ms).binding r ())
  refine (both_combinatorClaims h.context.specs h.methods).bind fun joined joined' hjoined path => ?_
  rw [supportClaims_congr h.methods]
  simp only [List.mem_append, or_and_right, exists_or, hjoined path]
  refine or_congr (or_congr ?_ Iff.rfl) Iff.rfl
  exact exists_congr fun c => and_congr_left' hown.mem_iff

/-- Plans of the same things in another order. The records of the contributors apart, the copied fields are the same. -/
structure Rearranges (b b' : Blueprint) : Prop where
  header : Header.Rearranges b.header b'.header
  fields : (b.fields.filter fun f => f.name != reservedField).Perm (b'.fields.filter fun f => f.name != reservedField)
  methods : b.methods.Perm b'.methods
  symbols : b.symbols.keys.Perm b'.symbols.keys

/--
Where two independent mixins stand side by side, both orders fail or both give the same plan in another order: the same
methods, each with all of its steps, hooks, signature and reference, the same fields but for the record of the
contributors, and the same capability sets, extra bases and symbols.
-/
theorem build_swap (d : Defaults) (strict : Bool) (q : Request) (before after : List TypeLike) {a b : TypeLike}
    (independent : ∀ m m', Provider.manifestFor? ms a = some m → Provider.manifestFor? ms b = some m' →
      m.Independent m') : Alike Rearranges
      (build (Provider.ofManifests ms) d strict { q with mixins := before ++ a :: b :: after })
      (build (Provider.ofManifests ms) d strict { q with mixins := before ++ b :: a :: after }) := by
  unfold build
  refine (alike_outline strict independent).bind fun o o' ho => ?_
  have hnow : Alike (fun _ _ => True) (get : Planner Unit (Planning Unit)) (get : Planner Unit (Planning Unit)) :=
    fun _ _ => trivial
  refine hnow.bind fun now now' _ => ?_
  refine (alike_ofExcept (both_claimsOf ho now.provider now'.provider)).bind fun claims claims' hclaims => ?_
  have hnoted : Alike (fun _ _ => True) (Planner.note (.built q.name o.methods.length) : Planner Unit Unit)
      (Planner.note (.built q.name o'.methods.length) : Planner Unit Unit) := fun _ _ => trivial
  refine hnoted.bind fun _ _ _ => alike_pure ⟨ho.header, ho.fields, ho.methods, ?_⟩
  refine (List.perm_ext_iff_of_nodup (nodup_keys_symbolsOf claims) (nodup_keys_symbolsOf claims')).2 fun path => ?_
  rw [mem_keys_symbolsOf, mem_keys_symbolsOf]
  exact hclaims path

end Blueprint

/-- A cart, a rebate that looks at the total and a log that looks at every call. -/
def Manifest.rebated : List Manifest :=
  [{ ref := ⟨"shop", "Cart"⟩, members := [{ name := "total" }], fields := [{ name := "items", default := some "()" }] },
    { ref := ⟨"shop", "Rebate"⟩
      members := [{ name := "total" }, { name := "BEFORE_total" }]
      fields := [{ name := "rate", default := some "0" }]
      capabilitySets := [⟨"shop", "Priced"⟩] },
    { ref := ⟨"shop", "Log"⟩
      members := [{ name := "show" }, { name := "BEFORE_ALL" }]
      fields := [{ name := "items" }, { name := "lines", default := some "()" }]
      capabilitySets := [⟨"shop", "Shown"⟩] }]

def Request.rebated (mixins : List TypeLike) : Request :=
  { name := "Sale", base := .text "shop:Cart", mixins, before := .everything }

namespace Blueprint

theorem build_swap_rebated : ∃ b b',
    ((build (Provider.ofManifests Manifest.rebated) ⟨.function 0, .function 1, .cls 2, .cls 3, .function 4⟩ true
      (.rebated [.text "shop:Rebate", .text "shop:Log"])).runFrom ⟨(), []⟩).1 = .ok b ∧
    ((build (Provider.ofManifests Manifest.rebated) ⟨.function 0, .function 1, .cls 2, .cls 3, .function 4⟩ true
      (.rebated [.text "shop:Log", .text "shop:Rebate"])).runFrom ⟨(), []⟩).1 = .ok b' ∧
    b.memberNames = ["total", "BEFORE_total", "show", "BEFORE_ALL"] ∧
    b'.memberNames = ["total", "show", "BEFORE_ALL", "BEFORE_total"] ∧ Rearranges b b' := by
  have hboth : Both Rearranges
      ((build (Provider.ofManifests Manifest.rebated) ⟨.function 0, .function 1, .cls 2, .cls 3, .function 4⟩ true
        (.rebated [.text "shop:Rebate", .text "shop:Log"])).runFrom ⟨(), []⟩).1
      ((build (Provider.ofManifests Manifest.rebated) ⟨.function 0, .function 1, .cls 2, .cls 3, .function 4⟩ true
        (.rebated [.text "shop:Log", .text "shop:Rebate"])).runFrom ⟨(), []⟩).1 := by
    refine build_swap _ true (.rebated []) [] [] (fun m m' hm hm' => ?_) ⟨(), []⟩ ⟨(), []⟩
    have hrebate : Provider.manifestFor? Manifest.rebated (.text "shop:Rebate") = Manifest.rebated[1]? := by decide +kernel
    have hlog : Provider.manifestFor? Manifest.rebated (.text "shop:Log") = Manifest.rebated[2]? := by decide +kernel
    obtain rfl := Option.some.inj (hm.symm.trans hrebate)
    obtain rfl := Option.some.inj (hm'.symm.trans hlog)
    exact ⟨by decide +kernel, by decide +kernel⟩
  generalize hx : ((build (Provider.ofManifests Manifest.rebated) _ true
    (.rebated [.text "shop:Rebate", .text "shop:Log"])).runFrom (⟨(), []⟩ : Planning Unit)).1 = x at hboth
  generalize hy : ((build (Provider.ofManifests Manifest.rebated) _ true
    (.rebated [.text "shop:Log", .text "shop:Rebate"])).runFrom (⟨(), []⟩ : Planning Unit)).1 = y at hboth
  have hnames : x.toOption.map memberNames = some ["total", "BEFORE_total", "show", "BEFORE_ALL"] := by
    rw [← hx]
    decide +kernel
  have hnames' : y.toOption.map memberNames = some ["total", "show", "BEFORE_ALL", "BEFORE_total"] := by
    rw [← hy]
    decide +kernel
  cases x with
  | error e => cases hnames
  | ok b =>
    cases y with
    | error e => cases hnames'
    | ok b' => exact ⟨b, b', rfl, rfl, Option.some.inj hnames, Option.some.inj hnames', hboth⟩

end Blueprint

end Amalgam
