import Amalgam.Proofs.Blueprint.Bases
import Amalgam.Proofs.Session.Seed
import Amalgam.Proofs.World.Ancestry
import Amalgam.Proofs.World.Serving

/-!
# The bases of a composite of live classes

A provider that is asked of one world only gives each class one reference (`Roster.Claims`), and says of each class which
capability sets stand above it (`Roster.serves_of_claims`). Where to be an ancestor is a partial order, this is a lineage
(`Roster.isLineage_of_claims`), so what is listed next to the base is told by the ancestors alone. No listed class is the
base or an ancestor of it, and none is an ancestor of another listed class; the base itself stands above a listed class
exactly if some mixin has a capability set that extends the base (`Blueprint.apart_bases_iff`).
-/

namespace Amalgam

variable {w : World}

/-! ## Capability sets -/

namespace World

/-- A class that counts as a capability set of those that extend it. -/
def IsCapability (w : World) (id : Nat) : Prop := id ≠ objectId ∧ id ∉ markIds ∧ (w.cls id).hasAbstracts = true

/-- None of these classes is an ancestor of another one, and each is listed once. -/
def Apart (w : World) (ids : List Nat) : Prop := ids.Pairwise fun a b => a ≠ b ∧ a ∉ w.order b ∧ b ∉ w.order a

instance (w : World) (ids : List Nat) : Decidable (w.Apart ids) := inferInstanceAs (Decidable (List.Pairwise _ _))

variable (ordered : w.IsOrdered)

include ordered

theorem mem_capabilityAncestors {id a : Nat} :
    a ∈ w.capabilityAncestors id ↔ a ∈ w.order id ∧ a ≠ id ∧ w.IsCapability a := by
  simp [capabilityAncestors, ordered.mem_tail_iff, IsCapability, and_assoc]

theorem capabilityAncestors_subset {id a : Nat} (ha : a ∈ w.capabilityAncestors id) :
    w.capabilityAncestors a ⊆ w.capabilityAncestors id := by
  intro b hb
  obtain ⟨ha, hne, -⟩ := (mem_capabilityAncestors ordered).1 ha
  obtain ⟨hb, hne', hcap⟩ := (mem_capabilityAncestors ordered).1 hb
  refine (mem_capabilityAncestors ordered).2 ⟨ordered.order_subset ha hb, ?_, hcap⟩
  rintro rfl
  exact hne (ordered.eq_of_mem_order ha hb)

/-- No class can be made of a base and of sets that stand apart from each other, but above which the base is. -/
theorem create_of_not_apart {base : Nat} {listed : List Nat} {d : Draft} (hd : d.bases = base :: listed)
    (hlisted : w.Apart listed) (habove : ∀ a ∈ listed, a ≠ base ∧ a ∉ w.order base) (h : ¬w.Apart (base :: listed)) :
    (create d).runFrom w = (.error (.fault .type), w) := by
  obtain ⟨a, ha, hmem⟩ : ∃ a ∈ listed, base ∈ w.order a := by
    by_contra hnone
    refine h (List.pairwise_cons.2 ⟨fun a ha => ⟨Ne.symm (habove a ha).1, fun hmem => hnone ⟨a, ha, hmem⟩, ?_⟩, hlisted⟩)
    exact (habove a ha).2
  have hparents : d.parents = base :: listed := by
    rw [Draft.parents, hd]
    rfl
  refine ordered.create_of_contained ?_ (Ne.symm (habove a ha).1) hmem
  rw [hparents]
  exact (List.singleton_sublist.2 ha).cons_cons base

end World

/-! ## One reference for each class -/

namespace Roster

variable {c c' d : Roster}

/-- The reference that a class has, or is given at the next question. -/
def refTo (w : World) (c : Roster) (id : Nat) : SymbolRef := c.choose id (w.refOf id)

/-- A class has the reference that it would be given. -/
def Claims (w : World) (c : Roster) (id : Nat) : Prop := c.classes.get? (c.refTo w id).path = some id

/-- A class keeps its reference. -/
theorem Claims.later {id : Nat} (h : c.Claims w id) (hext : c.Extends d) : d.refTo w id = c.refTo w id ∧ d.Claims w id := by
  have hid := hext _ _ h
  have hsame : d.refTo w id = c.refTo w id := choose_settles hext hid
  exact ⟨hsame, by rwa [Claims, hsame]⟩

theorem claims_of_claim {id : Nat} {r : SymbolRef} (h : (claim w id).runFrom c = (.ok r, c')) :
    r = c'.refTo w id ∧ c'.Claims w id := by
  obtain ⟨hext, hclasses⟩ := claim_eq_ok h
  have hr : r = c.refTo w id := by
    cases h
    rfl
  have hid : c'.classes.get? (c.refTo w id).path = some id := by rw [hclasses, hr, Entries.get?_put_self]
  have hsame : c'.refTo w id = c.refTo w id := choose_settles hext hid
  exact ⟨hr.trans hsame.symm, by rwa [Claims, hsame]⟩

theorem claims_of_claimAll {ids : List Nat} {refs : List SymbolRef} (h : (ids.mapM (claim w)).runFrom c = (.ok refs, c')) :
    refs = ids.map (c'.refTo w) ∧ ∀ id ∈ ids, c'.Claims w id := by
  induction ids generalizing refs c with
  | nil =>
    cases h
    exact ⟨rfl, fun id hid => absurd hid List.not_mem_nil⟩
  | cons id ids ih =>
    rw [List.mapM_cons] at h
    obtain ⟨r, u, hr, h⟩ := Act.bind_eq_ok.1 h
    obtain ⟨rest, v, hrest, h⟩ := Act.bind_eq_ok.1 h
    cases h
    obtain ⟨hrefs, hall⟩ := ih hrest
    obtain ⟨rfl, hclaims⟩ := claims_of_claim hr
    obtain ⟨hsame, hclaims⟩ := hclaims.later (claimAll_eq_ok hrest).1
    refine ⟨by rw [List.map_cons, hsame, hrefs], fun x hx => ?_⟩
    rcases List.mem_cons.1 hx with rfl | hx
    · exact hclaims
    · exact hall x hx

/-! ## What is read of a class -/

/-- The sets that stand above the class of a path, by their references. -/
def setsTo (w : World) (c : Roster) (r : SymbolRef) : List SymbolRef :=
  ((c.classes.get? r.path).map fun id => (w.capabilityAncestors id).map (c.refTo w)).getD []

/-- The sets above a class have references of their own. -/
def ClaimsAbove (w : World) (c : Roster) (id : Nat) : Prop := ∀ a ∈ w.capabilityAncestors id, c.Claims w a

/-- Every manifest that is kept was read off the class of its path. -/
def Knows (w : World) (c : Roster) : Prop := ∀ path m, c.manifests.get? path = some m →
  ∃ id, c.classes.get? path = some id ∧ m.capabilitySets = (w.capabilityAncestors id).map (c.refTo w) ∧ c.ClaimsAbove w id

theorem ClaimsAbove.later {id : Nat} (h : c.ClaimsAbove w id) (hext : c.Extends d) :
    (w.capabilityAncestors id).map (d.refTo w) = (w.capabilityAncestors id).map (c.refTo w) ∧ d.ClaimsAbove w id :=
  ⟨List.map_congr_left fun a ha => ((h a ha).later hext).1, fun a ha => ((h a ha).later hext).2⟩

theorem Knows.later (h : c.Knows w) (hext : c.Extends d) (hmanifests : d.manifests = c.manifests) : d.Knows w := by
  intro path m hm
  obtain ⟨id, hid, hsets, habove⟩ := h path m (hmanifests ▸ hm)
  obtain ⟨hsame, habove⟩ := habove.later hext
  exact ⟨id, hext _ _ hid, hsets.trans hsame.symm, habove⟩

theorem knows_manifest {r : SymbolRef} {m : Manifest} (h : c.Knows w) (hrun : (manifest w r).runFrom c = (.ok m, c')) :
    c'.Knows w := by
  have hext : c.Extends c' := by
    have := manifest_extends (w := w) c r c (Extends.refl c)
    rwa [hrun] at this
  obtain ⟨now, u, hnow, hrun⟩ := Act.bind_eq_ok.1 hrun
  cases hnow
  cases hfound : c.manifests.get? r.path with
  | some m' =>
    simp only [hfound] at hrun
    cases hrun
    exact h
  | none =>
    simp only [hfound] at hrun
    obtain ⟨id, v, hid, hrun⟩ := Act.bind_eq_ok.1 hrun
    obtain ⟨sets, x, hsets, hrun⟩ := Act.bind_eq_ok.1 hrun
    cases hrun
    obtain ⟨hextx, hmanifests, -⟩ := claimAll_eq_ok hsets
    obtain ⟨hrefs, habove⟩ := claims_of_claimAll hsets
    intro path m' hm'
    by_cases hpath : path = r.path
    · subst hpath
      rw [Entries.get?_put_self] at hm'
      cases hm'
      exact ⟨id, hextx _ _ (get?_of_find hid), by rw [capabilitySets_inspect, hrefs]; rfl, habove⟩
    · rw [Entries.get?_put_of_ne _ _ hpath, hmanifests, manifests_find hid] at hm'
      obtain ⟨id', hid', hsets', habove'⟩ := h path m' hm'
      obtain ⟨hsame, habove'⟩ := habove'.later hext
      exact ⟨id', hext _ _ hid', hsets'.trans hsame.symm, habove'⟩

/-- The states of a provider of live classes that was asked of one world only. -/
inductive Asked (w : World) : Roster → Prop
  | new : Asked w {}
  | resolve {c : Roster} (t : TypeLike) : Asked w c → Asked w ((Roster.resolve w t).runFrom c).2
  | manifest {c : Roster} (r : SymbolRef) : Asked w c → Asked w ((Roster.manifest w r).runFrom c).2

theorem Asked.knows (h : c.Asked w) : c.Knows w := by
  induction h with
  | new => exact fun path m hm => nomatch hm
  | @resolve c t _ ih => exact ih.later (resolve_extends c t c (Extends.refl c)) (manifests_after_resolve c t)
  | @manifest c r _ ih =>
    generalize hrun : (Roster.manifest w r).runFrom c = done
    obtain ⟨outcome, d⟩ := done
    cases outcome with
    | error e => rwa [(manifest_eq_error hrun).1]
    | ok m => exact knows_manifest ih hrun

/-! ## What a provider says of capability sets -/

/-- The sets above a class that is claimed. -/
theorem capabilitySets_of_claims {r : SymbolRef} {id : Nat} (h : c.Knows w) (hid : c.classes.get? r.path = some id) :
    ∃ d, ((Provider.live w).capabilitySets r).runFrom c = (.ok ((w.capabilityAncestors id).map (d.refTo w)), d) ∧
      c.Extends d ∧ d.Knows w ∧ d.ClaimsAbove w id := by
  obtain ⟨m, d, hm⟩ := exists_manifest (w := w) (Entries.mem_keys_of_get? hid)
  have hext : c.Extends d := by
    have := manifest_extends (w := w) c r c (Extends.refl c)
    rwa [hm] at this
  have hknows := knows_manifest h hm
  obtain ⟨id', hid', hsets, habove⟩ := hknows _ _ (get?_of_manifest hm)
  rw [hext _ _ hid] at hid'
  cases hid'
  exact ⟨d, Act.bind_eq_ok.2 ⟨m, d, hm, by rw [← hsets]; rfl⟩, hext, hknows, habove⟩

theorem setsTo_refTo {id : Nat} (h : c.Claims w id) : c.setsTo w (c.refTo w id) = (w.capabilityAncestors id).map (c.refTo w) := by
  rw [setsTo, show c.classes.get? (c.refTo w id).path = some id from h]
  rfl

/-- All classes of a list, and all capability sets above them, have references. -/
def ClaimsAll (w : World) (c : Roster) (ids : List Nat) : Prop := ∀ id ∈ ids, c.Claims w id ∧ c.ClaimsAbove w id

theorem ClaimsAll.flatMap {ids : List Nat} (h : c.ClaimsAll w ids) :
    (ids.map (c.refTo w)).flatMap (c.setsTo w) = (ids.flatMap w.capabilityAncestors).map (c.refTo w) := by
  rw [List.flatMap_map, List.map_flatMap]
  exact List.flatMap_congr fun id hid => setsTo_refTo (h id hid).1

/-- What is said of classes that some paths stand for, asked for one after another: all sets above them have references then. -/
theorem capabilitySets_of_bound {rs : List SymbolRef} {ids : List Nat} (h : c.Knows w)
    (bound : List.Forall₂ (fun r id => c.classes.get? r.path = some id) rs ids) :
    ∃ d, (rs.mapM (Provider.live w).capabilitySets).runFrom c =
        (.ok (ids.map fun id => (w.capabilityAncestors id).map (d.refTo w)), d) ∧
      c.Extends d ∧ d.Knows w ∧ ∀ id ∈ ids, d.ClaimsAbove w id := by
  induction rs generalizing c ids with
  | nil =>
    cases bound
    exact ⟨c, rfl, Extends.refl c, h, fun id hid => absurd hid List.not_mem_nil⟩
  | cons r rs ih =>
    obtain ⟨id, ids, hid, hrest, rfl⟩ := List.forall₂_cons_left_iff.1 bound
    obtain ⟨u, hu, hext, hknows, habove⟩ := capabilitySets_of_claims h hid
    obtain ⟨d, hd, hext', hknows', hall⟩ := ih hknows (hrest.imp fun _ _ hbound => hext _ _ hbound)
    obtain ⟨hsame, habove⟩ := habove.later hext'
    refine ⟨d, ?_, hext.trans hext', hknows', List.forall_mem_cons.2 ⟨habove, hall⟩⟩
    rw [List.mapM_cons, List.map_cons, hsame]
    exact Act.bind_eq_ok.2 ⟨_, u, hu, Act.bind_eq_ok.2 ⟨_, d, hd, rfl⟩⟩

/-- Classes that are asked for by their references keep them. -/
theorem capabilitySets_of_claimsAll {ids : List Nat} (h : c.Knows w) (hids : ∀ id ∈ ids, c.Claims w id) :
    ∃ d, ((ids.map (c.refTo w)).mapM (Provider.live w).capabilitySets).runFrom c =
        (.ok (ids.map fun id => (w.capabilityAncestors id).map (d.refTo w)), d) ∧
      c.Extends d ∧ d.Knows w ∧ d.ClaimsAll w ids := by
  have bound : List.Forall₂ (fun r id => c.classes.get? r.path = some id) (ids.map (c.refTo w)) ids :=
    List.forall₂_map_left_iff.2 (List.forall₂_same.2 hids)
  obtain ⟨d, hd, hext, hknows, habove⟩ := capabilitySets_of_bound h bound
  exact ⟨d, hd, hext, hknows, fun id hid => ⟨((hids id hid).later hext).2, habove id hid⟩⟩

variable (ordered : w.IsOrdered)

include ordered

/-- Of sets above some classes it is said, whenever they are asked for, which sets are above them in turn. -/
theorem capabilitySets_above {ids : List Nat} (habove : ∀ id ∈ ids, d.ClaimsAbove w id) {r : SymbolRef}
    (hr : r ∈ (ids.flatMap w.capabilityAncestors).map (d.refTo w)) {s : Roster} (hs : d.Extends s ∧ s.Knows w) :
    ∃ s', ((Provider.live w).capabilitySets r).runFrom s = (.ok (d.setsTo w r), s') ∧ d.Extends s' ∧ s'.Knows w := by
  obtain ⟨hs, hsknows⟩ := hs
  obtain ⟨a, ha, rfl⟩ := List.mem_map.1 hr
  obtain ⟨id, hid, ha⟩ := List.mem_flatMap.1 ha
  have hclaims := habove id hid a ha
  obtain ⟨s', hs', hext', hknows', -⟩ := capabilitySets_of_claims hsknows (hs _ _ hclaims)
  -- The sets above the set stand above the class too, so they had their references before.
  have hset : d.ClaimsAbove w a := fun b hb => habove id hid b (World.capabilityAncestors_subset ordered ha hb)
  refine ⟨s', ?_, hs.trans hext', hknows'⟩
  rw [setsTo_refTo hclaims, ← (hset.later (hs.trans hext')).1]
  exact hs'

/-- A provider of live classes says of each class, whenever it is asked, which capability sets are its ancestors. -/
theorem serves_of_claims {ids : List Nat} (h : c.Knows w) (hids : ∀ id ∈ ids, c.Claims w id) :
    ∃ d, (((ids.map (c.refTo w)).mapM (Provider.live w).capabilitySets).runFrom c).2 = d ∧ c.Extends d ∧ d.ClaimsAll w ids ∧
      (Provider.live w).Serves c (ids.map (d.refTo w)) (d.setsTo w) := by
  obtain ⟨d, hd, hext, hknows, hall⟩ := capabilitySets_of_claimsAll h hids
  have hrefs : ids.map (d.refTo w) = ids.map (c.refTo w) :=
    List.map_congr_left fun id hid => ((hids id hid).later hext).1
  have hsets : (ids.map (d.refTo w)).map (d.setsTo w) = ids.map fun id => (w.capabilityAncestors id).map (d.refTo w) := by
    rw [List.map_map]
    exact List.map_congr_left fun id hid => setsTo_refTo (hall id hid).1
  refine ⟨d, congrArg Prod.snd hd, hext, hall, fun s => d.Extends s ∧ s.Knows w, d, ?_, ⟨Extends.refl d, hknows⟩, ?_⟩
  · rw [hsets, hrefs]
    exact hd
  · rw [hall.flatMap]
    exact fun r hr s hs => capabilitySets_above ordered (fun id hid => (hall id hid).2) hr hs

/-- What it says is a lineage. -/
theorem isLineage_of_claims {ids : List Nat} (hall : c.ClaimsAll w ids) :
    IsLineage (ids.map (c.refTo w)) (c.setsTo w) := by
  have hfamily : ∀ r ∈ ids.map (c.refTo w) ++ (ids.map (c.refTo w)).flatMap (c.setsTo w),
      ∃ id, r = c.refTo w id ∧ c.Claims w id ∧ c.ClaimsAbove w id := by
    intro r hr
    rcases List.mem_append.1 hr with hr | hr
    · obtain ⟨id, hid, rfl⟩ := List.mem_map.1 hr
      exact ⟨id, rfl, hall id hid⟩
    · rw [hall.flatMap] at hr
      obtain ⟨a, ha, rfl⟩ := List.mem_map.1 hr
      obtain ⟨id, hid, ha⟩ := List.mem_flatMap.1 ha
      exact ⟨a, rfl, (hall id hid).2 a ha, fun b hb => (hall id hid).2 b (World.capabilityAncestors_subset ordered ha hb)⟩
  refine ⟨fun r hr s hs => ?_, fun r hr hself => ?_, fun r hr s hs hpath => ?_⟩
  · obtain ⟨id, rfl, hclaims, habove⟩ := hfamily r hr
    rw [setsTo_refTo hclaims] at hs ⊢
    obtain ⟨a, ha, rfl⟩ := List.mem_map.1 hs
    rw [setsTo_refTo (habove a ha)]
    exact List.map_subset _ (World.capabilityAncestors_subset ordered ha)
  · obtain ⟨id, rfl, hclaims, habove⟩ := hfamily r hr
    rw [setsTo_refTo hclaims] at hself
    obtain ⟨a, ha, hsame⟩ := List.mem_map.1 hself
    have hid : c.classes.get? (c.refTo w a).path = some a := habove a ha
    rw [hsame, show c.classes.get? (c.refTo w id).path = some id from hclaims] at hid
    exact ((World.mem_capabilityAncestors ordered).1 ha).2.1 (Option.some.inj hid).symm
  · obtain ⟨id, rfl, hclaims, -⟩ := hfamily r hr
    obtain ⟨id', rfl, hclaims', -⟩ := hfamily s hs
    have hid : c.classes.get? (c.refTo w id').path = some id' := hclaims'
    rw [← hpath, show c.classes.get? (c.refTo w id).path = some id from hclaims] at hid
    rw [Option.some.inj hid]

omit ordered in
/-- Classes that have references are told apart by their paths. -/
theorem Claims.eq_of_path {id id' : Nat} (h : c.Claims w id) (h' : c.Claims w id')
    (hpath : (c.refTo w id).path = (c.refTo w id').path) : id = id' := by
  have hid : c.classes.get? (c.refTo w id').path = some id' := h'
  rw [← hpath, show c.classes.get? (c.refTo w id).path = some id from h] at hid
  exact Option.some.inj hid

omit ordered in
theorem Claims.injective {id id' : Nat} (h : c.Claims w id) (h' : c.Claims w id') (hsame : c.refTo w id = c.refTo w id') :
    id = id' := h.eq_of_path h' (congrArg SymbolRef.path hsame)

omit ordered in
theorem mem_setsTo_iff {id a : Nat} (hid : c.Claims w id) (habove : c.ClaimsAbove w id) (ha : c.Claims w a) :
    c.refTo w a ∈ c.setsTo w (c.refTo w id) ↔ a ∈ w.capabilityAncestors id := by
  rw [setsTo_refTo hid]
  refine ⟨fun h => ?_, List.mem_map_of_mem⟩
  obtain ⟨b, hb, hsame⟩ := List.mem_map.1 h
  rwa [← (habove b hb).injective ha hsame]

omit ordered in
/-- References to some classes are those of a list of these classes. -/
theorem exists_map_refTo {rs : List SymbolRef} {ids : List Nat} (h : rs ⊆ ids.map (c.refTo w)) :
    ∃ listed, rs = listed.map (c.refTo w) ∧ listed ⊆ ids := by
  induction rs with
  | nil => exact ⟨[], rfl, List.nil_subset _⟩
  | cons r rs ih =>
    obtain ⟨hr, hrs⟩ := List.cons_subset.1 h
    obtain ⟨id, hid, rfl⟩ := List.mem_map.1 hr
    obtain ⟨listed, rfl, hlisted⟩ := ih hrs
    exact ⟨id :: listed, rfl, List.cons_subset.2 ⟨hid, hlisted⟩⟩

omit ordered in
/-- The numbers of classes that are given as they are. -/
theorem exists_ids {types : List TypeLike} (live : ∀ type ∈ types, ∃ id r, type = TypeLike.live id r) :
    ∃ ids, List.Forall₂ (fun type id => ∃ r, type = TypeLike.live id r) types ids := by
  induction types with
  | nil => exact ⟨[], .nil⟩
  | cons type types ih =>
    obtain ⟨id, hid⟩ := live type List.mem_cons_self
    obtain ⟨ids, hids⟩ := ih fun t ht => live t (List.mem_cons_of_mem _ ht)
    exact ⟨id :: ids, .cons hid hids⟩

omit ordered in
theorem forall_ids {types : List TypeLike} {ids : List Nat}
    (h : List.Forall₂ (fun type id => ∃ r, type = TypeLike.live id r) types ids) {P : Nat → Prop} :
    (∀ id ∈ ids, P id) ↔ ∀ type ∈ types, ∀ id, type.class? w = some id → P id := by
  induction h with
  | nil => simp
  | cons hlive _ ih =>
    obtain ⟨r, rfl⟩ := hlive
    rw [List.forall_mem_cons, List.forall_mem_cons, ih]
    simp [TypeLike.class?]

omit ordered in
/-- Live classes are resolved by claiming them. -/
theorem mapM_resolve_live {types : List TypeLike} {ids : List Nat}
    (h : List.Forall₂ (fun type id => ∃ r, type = TypeLike.live id r) types ids) :
    types.mapM (resolve w) = ids.mapM (claim w) := by
  induction h with
  | nil => rfl
  | cons hlive _ ih =>
    obtain ⟨r, rfl⟩ := hlive
    rw [List.mapM_cons, List.mapM_cons, ih]
    rfl

end Roster

namespace Blueprint

/-- What is told of the classes of a mix by their references, in a roster that has them all. -/
structure Listing (w : World) (d : Roster) (x : Mix) (base : Nat) (mixins listed : List Nat) : Prop where
  participants : x.participants = (base :: mixins).map (d.refTo w)
  extra : x.listed (d.setsTo w) = listed.map (d.refTo w)
  above : listed ⊆ (base :: mixins).flatMap w.capabilityAncestors
  claims : d.ClaimsAll w (base :: mixins)

namespace Listing

variable {w : World} {d : Roster} {x : Mix} {base : Nat} {mixins listed : List Nat} (ordered : w.IsOrdered)
  (h : Listing w d x base mixins listed)

include h

theorem base_eq : x.base = d.refTo w base := (List.cons.inj h.participants).1

theorem claims_of_above {a : Nat} (ha : a ∈ (base :: mixins).flatMap w.capabilityAncestors) : d.Claims w a := by
  obtain ⟨id, hid, ha⟩ := List.mem_flatMap.1 ha
  exact (h.claims id hid).2 a ha

theorem flatMap_eq : x.participants.flatMap (d.setsTo w) =
    ((base :: mixins).flatMap w.capabilityAncestors).map (d.refTo w) := by
  rw [h.participants]
  exact h.claims.flatMap

theorem nodup : listed.Nodup := by
  refine List.Nodup.of_map (d.refTo w) ?_
  rw [← h.extra]
  exact ((nodup_union _).filter _).filter _

/-- Where a class is listed, so is its reference. -/
theorem mem_listed_iff {a : Nat} (ha : a ∈ (base :: mixins).flatMap w.capabilityAncestors) :
    d.refTo w a ∈ x.listed (d.setsTo w) ↔ a ∈ listed := by
  rw [h.extra]
  refine ⟨fun hmem => ?_, List.mem_map_of_mem⟩
  obtain ⟨b, hb, hsame⟩ := List.mem_map.1 hmem
  rwa [← (h.claims_of_above (h.above hb)).injective (h.claims_of_above ha) hsame]

include ordered

theorem claimsAbove_of_above {a : Nat} (ha : a ∈ (base :: mixins).flatMap w.capabilityAncestors) : d.ClaimsAbove w a := by
  obtain ⟨id, hid, ha⟩ := List.mem_flatMap.1 ha
  exact fun b hb => (h.claims id hid).2 b (World.capabilityAncestors_subset ordered ha hb)

omit h in
/-- A set is an ancestor of another class exactly if it is a set of that class. -/
theorem mem_order_iff {id a : Nat} (ha : a ∈ (base :: mixins).flatMap w.capabilityAncestors) (hne : a ≠ id) :
    a ∈ w.order id ↔ a ∈ w.capabilityAncestors id := by
  obtain ⟨_, -, hcap⟩ := List.mem_flatMap.1 ha
  have hcap := ((World.mem_capabilityAncestors ordered).1 hcap).2.2
  rw [World.mem_capabilityAncestors ordered]
  exact ⟨fun hmem => ⟨hmem, hne, hcap⟩, fun hmem => hmem.1⟩

/-- No listed set is the base, or an ancestor of the base or of another listed set. -/
theorem not_mem_order {a : Nat} (ha : a ∈ listed) :
    a ≠ base ∧ a ∉ w.order base ∧ ∀ b ∈ listed, a ≠ b → a ∉ w.order b := by
  obtain ⟨hne, hbase, hlisted⟩ := not_brought_of_listed ((h.mem_listed_iff (h.above ha)).2 ha)
  rw [h.base_eq] at hne hbase
  have hclaims := h.claims_of_above (h.above ha)
  have hne : a ≠ base := fun heq => hne (heq ▸ rfl)
  obtain ⟨hclaimsBase, haboveBase⟩ := h.claims base List.mem_cons_self
  rw [Roster.mem_setsTo_iff hclaimsBase haboveBase hclaims] at hbase
  refine ⟨hne, fun hmem => hbase ((mem_order_iff ordered (h.above ha) hne).1 hmem), fun b hb hneb hmem => ?_⟩
  refine hlisted _ ((h.mem_listed_iff (h.above hb)).2 hb) ?_
  rw [Roster.mem_setsTo_iff (h.claims_of_above (h.above hb)) (h.claimsAbove_of_above ordered (h.above hb)) hclaims]
  exact (mem_order_iff ordered (h.above ha) hneb).1 hmem

theorem apart_listed : w.Apart listed :=
  h.nodup.pairwise_of_forall_ne fun a ha b hb hne =>
    ⟨hne, (h.not_mem_order ordered ha).2.2 b hb hne, (h.not_mem_order ordered hb).2.2 a ha (Ne.symm hne)⟩

/-- Every set that extends the base is listed, or an ancestor of a listed set. -/
theorem exists_listed {a : Nat} (ha : a ∈ (base :: mixins).flatMap w.capabilityAncestors) (hbase : base ∈ w.order a)
    (hne : a ≠ base) : ∃ e ∈ listed, base ∈ w.order e := by
  have lineage : IsLineage x.participants (d.setsTo w) := h.participants ▸ Roster.isLineage_of_claims ordered h.claims
  obtain ⟨hclaimsBase, haboveBase⟩ := h.claims base List.mem_cons_self
  have hclaims := h.claims_of_above ha
  have hset : d.refTo w a ∈ x.participants.flatMap (d.setsTo w) := h.flatMap_eq ▸ List.mem_map_of_mem ha
  rcases covered_by_listed lineage hset with hsame | hbrought | hlisted | ⟨e, he, hbrought⟩
  · rw [h.base_eq] at hsame
    exact absurd (hclaims.injective hclaimsBase hsame) hne
  · rw [h.base_eq, Roster.mem_setsTo_iff hclaimsBase haboveBase hclaims] at hbrought
    exact absurd (ordered.eq_of_mem_order ((World.mem_capabilityAncestors ordered).1 hbrought).1 hbase) hne
  · exact ⟨a, (h.mem_listed_iff ha).1 hlisted, hbase⟩
  · rw [h.extra] at he
    obtain ⟨b, hb, rfl⟩ := List.mem_map.1 he
    rw [Roster.mem_setsTo_iff (h.claims_of_above (h.above hb)) (h.claimsAbove_of_above ordered (h.above hb)) hclaims]
      at hbrought
    exact ⟨b, hb, ordered.order_subset ((World.mem_capabilityAncestors ordered).1 hbrought).1 hbase⟩

/-- The list is as it should be exactly if no mixin has a set, other than the base, that extends the base. -/
theorem apart_iff : w.Apart (base :: listed) ↔
    ∀ id ∈ mixins, ∀ a ∈ w.capabilityAncestors id, base ∈ w.order a → a = base := by
  have hbase : w.Apart (base :: listed) ↔ ∀ a ∈ listed, base ∉ w.order a := by
    rw [World.Apart, List.pairwise_cons]
    refine ⟨fun hall a ha => (hall.1 a ha).2.1, fun hall => ⟨fun a ha => ?_, h.apart_listed ordered⟩⟩
    obtain ⟨hne, hmem, -⟩ := h.not_mem_order ordered ha
    exact ⟨Ne.symm hne, hall a ha, hmem⟩
  rw [hbase]
  refine ⟨fun hall id hid a ha hmem => ?_, fun hall a ha hmem => ?_⟩
  · by_contra hne
    obtain ⟨e, he, hmem⟩ := h.exists_listed ordered (List.mem_flatMap.2 ⟨id, List.mem_cons_of_mem _ hid, ha⟩) hmem hne
    exact hall e he hmem
  · obtain ⟨hne, hnot, -⟩ := h.not_mem_order ordered ha
    obtain ⟨id, hid, hset⟩ := List.mem_flatMap.1 (h.above ha)
    rcases List.mem_cons.1 hid with rfl | hid
    · exact hnot ((World.mem_capabilityAncestors ordered).1 hset).1
    · exact hne (hall id hid a hset hmem)

end Listing

/-- A plan of live classes lists sets by the references that all classes of the mix have in the end. -/
theorem exists_listing {w : World} {c : Roster} {d : Defaults} {strict : Bool} {q : Request} {o : Outline}
    {notices : List Notice} {t' : Planning Roster} (ordered : w.IsOrdered) (asked : c.Asked w)
    (live : ∀ type ∈ q.base :: q.mixins, ∃ id r, type = .live id r)
    (h : (outline (Provider.live w) d strict q).runFrom ⟨c, notices⟩ = (.ok o, t')) : ∃ e base mixins listed,
      Listing w e o.mix base mixins listed ∧ e.Extends t'.provider ∧
      List.Forall₂ (fun type id => ∃ r, type = TypeLike.live id r) (q.base :: q.mixins) (base :: mixins) ∧
      o.extra = listed.map (e.refTo w) ∧
      o.header.base :: o.header.extraBases = (base :: listed).map fun id => (e.refTo w id).path := by
  obtain ⟨u, y, hmix, hheader, hkeeps, -⟩ := stages_of_outline h
  obtain ⟨ids, hids⟩ := Roster.exists_ids live
  -- The contributors are claimed one after another, and keep the references that they get.
  have hresolved : (ids.mapM (Roster.claim w)).runFrom c = (.ok o.mix.participants, u.provider) := by
    have hresolved := participants_of_resolveMix hmix
    rw [Planner.mapM_ask] at hresolved
    rw [← Roster.mapM_resolve_live hids]
    exact Planner.ask_eq_ok hresolved
  obtain ⟨hextends, hmanifests, -⟩ := Roster.claimAll_eq_ok hresolved
  obtain ⟨hparticipants, hclaimed⟩ := Roster.claims_of_claimAll hresolved
  obtain ⟨e, hend, hext, hall, serves⟩ :=
    Roster.serves_of_claims ordered (asked.knows.later hextends hmanifests) hclaimed
  have hrefs : o.mix.participants = ids.map (e.refTo w) := by
    rw [hparticipants]
    exact List.map_congr_left fun id hid => ((hclaimed id hid).later hext).1.symm
  have lineage := Roster.isLineage_of_claims ordered hall
  rw [← hrefs] at serves lineage
  obtain ⟨-, hextra, hextraBases⟩ := planHeader_of_serves serves lineage hheader
  obtain ⟨base, mixins, -, -, rfl⟩ := List.forall₂_cons_left_iff.1 hids
  obtain ⟨listed, hlisted, habove⟩ : ∃ listed, o.mix.listed (e.setsTo w) = listed.map (e.refTo w) ∧
      listed ⊆ (base :: mixins).flatMap w.capabilityAncestors := by
    refine Roster.exists_map_refTo fun r hr => ?_
    rw [← hall.flatMap, ← hrefs]
    exact (mem_ownSets.1 (mem_listed.1 hr).1).1
  have listing : Listing w e o.mix base mixins listed := ⟨hrefs, hlisted, habove, hall⟩
  refine ⟨e, base, mixins, listed, listing, ?_, hids, hextra.trans hlisted, ?_⟩
  · refine hkeeps (Provider.keeps_extends w e) (planHeader_keeps (Provider.keeps_extends w e) ?_ hheader)
    rw [hparticipants, hend]
    exact Roster.Extends.refl e
  · have hbase : o.header.base = o.mix.base.path := (List.cons.inj (paths_of_planHeader hheader)).1
    rw [hbase, listing.base_eq, hextraBases, hlisted, List.map_map]
    rfl

/--
What a composite of live classes lists. Each path of the base and of the sets next to it is bound to a class. No listed set
is the base or an ancestor of the base, and none is another listed set or an ancestor of one. So the list contains a class
and an ancestor of it only where the base is an ancestor of a listed set; that is so exactly if some mixin has a capability
set, other than the base, that extends the base, and then no class can be made of these bases.
-/
theorem apart_bases_iff {w : World} {c : Roster} {d : Defaults} {strict : Bool} {q : Request} {b : Blueprint}
    {notices : List Notice} {t' : Planning Roster} (ordered : w.IsOrdered) (asked : c.Asked w)
    (live : ∀ type ∈ q.base :: q.mixins, ∃ id r, type = .live id r)
    (built : (build (Provider.live w) d strict q).runFrom ⟨c, notices⟩ = (.ok b, t')) :
    ∃ base listed, q.base.class? w = some base ∧
      List.Forall₂ (fun path id => b.bindings.get? path = some (.cls id)) (b.header.base :: b.header.extraBases)
        (base :: listed) ∧
      w.Apart listed ∧ (∀ a ∈ listed, a ≠ base ∧ a ∉ w.order base) ∧
      (w.Apart (base :: listed) ↔ ∀ type ∈ q.mixins, ∀ id, type.class? w = some id →
        ∀ a ∈ w.capabilityAncestors id, base ∈ w.order a → a = base) ∧
      (¬w.Apart (base :: listed) → ∀ draft : World.Draft, draft.bases = base :: listed →
        (World.create draft).runFrom w = (.error (.fault .type), w)) := by
  obtain ⟨o, v, claims, ho, hclaims, rfl⟩ := build_eq_ok built
  obtain ⟨e, base, mixins, listed, listing, hlater, hids, hextra, hpaths⟩ := exists_listing ordered asked live ho
  obtain ⟨hbase, hmixins⟩ := List.forall₂_cons.1 hids
  have habove : ∀ a ∈ listed, a ≠ base ∧ a ∉ w.order base := fun a ha =>
    ⟨(listing.not_mem_order ordered ha).1, (listing.not_mem_order ordered ha).2.1⟩
  refine ⟨base, listed, ?_, ?_, listing.apart_listed ordered, habove, ?_, fun hnot draft hdraft => ?_⟩
  · obtain ⟨r, hr⟩ := hbase
    rw [hr]
    rfl
  · show List.Forall₂ _ (o.header.base :: o.header.extraBases) _
    rw [hpaths, List.forall₂_map_left_iff, List.forall₂_same]
    intro id hid
    have hmem : e.refTo w id ∈ o.mix.participants ++ o.extra := by
      rw [listing.participants, hextra, ← List.map_append]
      refine List.mem_map_of_mem ?_
      rcases List.mem_cons.1 hid with rfl | hid
      · exact List.mem_append_left _ List.mem_cons_self
      · exact List.mem_append_right _ hid
    have hclaimed : e.Claims w id := by
      rcases List.mem_cons.1 hid with rfl | hid
      · exact (listing.claims _ List.mem_cons_self).1
      · exact listing.claims_of_above (listing.above hid)
    exact (Session.claims_of_mem hclaims (List.mem_map_of_mem hmem) (hlater _ _ hclaimed)).2
  · rw [listing.apart_iff ordered]
    exact Roster.forall_ids hmixins
  · exact World.create_of_not_apart ordered hdraft (listing.apart_listed ordered) habove hnot

end Blueprint

/-- What is shown, what is shown with a price, and a rebate with a price. -/
def World.layered : World :=
  { fresh with
    classes := fresh.classes ++
      #[{ name := "Shown", qualname := "Shown", home := "shop", bases := [abcId], order := [absentId + 1, abcId, objectId],
          hasAbstracts := true },
        { name := "Priced", qualname := "Priced", home := "shop", bases := [absentId + 1],
          order := [absentId + 2, absentId + 1, abcId, objectId], hasAbstracts := true },
        { name := "Rebate", qualname := "Rebate", home := "shop", bases := [absentId + 2],
          order := [absentId + 3, absentId + 2, absentId + 1, abcId, objectId], hasAbstracts := true }] }

theorem World.isOrdered_layered : World.layered.IsOrdered :=
  ⟨by decide +kernel, by decide +kernel, by decide +kernel, by decide +kernel⟩

def Request.layered : Request :=
  { name := "Sale", base := .live 7 ⟨"shop", "Shown"⟩, mixins := [.live 9 ⟨"shop", "Rebate"⟩] }

/-- A rebate is mixed into what is shown; the set between them is listed after the base, which it extends. -/
theorem Blueprint.apart_bases_iff_layered : World.layered.IsOrdered ∧ Roster.Asked .layered {} ∧
    (∀ type ∈ Request.layered.base :: Request.layered.mixins, ∃ id r, type = .live id r) ∧ ∃ b t',
      (build (Provider.live .layered) Session.defaults true .layered).runFrom ⟨{}, []⟩ = (.ok b, t') ∧
      b.header.base = "shop:Shown" ∧ b.header.extraBases = ["shop:Priced"] ∧ ∃ listed,
        List.Forall₂ (fun path id => b.bindings.get? path = some (.cls id)) ["shop:Shown", "shop:Priced"] (7 :: listed) ∧
        ¬World.Apart .layered (7 :: listed) ∧ ∀ draft : World.Draft, draft.bases = 7 :: listed →
          (World.create draft).runFrom .layered = (.error (.fault .type), .layered) := by
  have live : ∀ type ∈ Request.layered.base :: Request.layered.mixins, ∃ id r, type = .live id r := by
    simp [Request.layered]
  generalize hrun : (build (Provider.live .layered) Session.defaults true .layered).runFrom (⟨{}, []⟩ : Planning Roster) = r
  have hheader : (r.1.toOption.map fun b => (b.header.base, b.header.extraBases)) = some ("shop:Shown", ["shop:Priced"]) := by
    rw [← hrun]
    decide +kernel
  obtain ⟨outcome, t'⟩ := r
  cases outcome with
  | error e => cases hheader
  | ok b =>
    have hheader := Option.some.inj hheader
    rw [Prod.mk.injEq] at hheader
    obtain ⟨hbase, hextra⟩ := hheader
    obtain ⟨base, listed, hclass, hbound, -, -, hiff, hfails⟩ := apart_bases_iff World.isOrdered_layered .new live hrun
    obtain rfl : 7 = base := Option.some.inj hclass
    rw [hbase, hextra] at hbound
    have hnot : ¬World.Apart .layered (7 :: listed) := fun hapart =>
      absurd (hiff.1 hapart (.live 9 ⟨"shop", "Rebate"⟩) List.mem_cons_self 9 rfl 8 (by decide +kernel) (by decide +kernel))
        (by decide)
    exact ⟨World.isOrdered_layered, .new, live, b, t', rfl, hbase, hextra, listed, hbound, hnot, hfails hnot⟩

end Amalgam
