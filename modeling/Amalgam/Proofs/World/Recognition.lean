import Amalgam.Proofs.Blueprint.Swapping
import Amalgam.Proofs.World.Naming

/-!
# Which names of a class are known for the same

A class object has one reference, and any other name of a class is a reference as it is spelled (`Roster.spelling?`), also
if it leads to the class by way of another module or of an heir of its owner. So two names of a class are known for the same
exactly if they are spelled the same; a mix is refused as one that lists a class twice if two spellings are one; and the base
itself is listed next to the base where it is given in other words than its own (`Blueprint.recognized_iff`).
-/

namespace Amalgam

variable {w : World}

namespace Roster

variable {c d : Roster}

/-- The reference that a name of a class is spelled as; a class object has its own. -/
def spelling? (w : World) (c : Roster) : TypeLike → Option SymbolRef
  | .text path => SymbolRef.parse? path
  | .ref r => some r
  | .live id _ => some (c.refTo w id)
  | .other _ => none

/-! ## Names that are resolved -/

/-- A name is resolved to what it is spelled as, ever after, and that stands for a class. -/
theorem spelling_of_resolve {t : TypeLike} {r : SymbolRef} (h : (resolve w t).runFrom c = (.ok r, d)) :
    (∃ id, d.classes.get? r.path = some id) ∧ ∀ e, d.Extends e → e.spelling? w t = some r := by
  cases t with
  | text path =>
    obtain ⟨parsed, u, hparse, h⟩ := Act.bind_eq_ok.1 h
    obtain ⟨id, v, hid, h⟩ := Act.bind_eq_ok.1 h
    cases h
    refine ⟨⟨id, get?_of_find hid⟩, fun e _ => ?_⟩
    unfold Provider.parse at hparse
    cases hp : SymbolRef.parse? path with
    | none =>
      rw [hp] at hparse
      cases hparse
    | some found =>
      rw [hp] at hparse
      cases hparse
      exact hp
  | ref r' =>
    obtain ⟨id, v, hid, h⟩ := Act.bind_eq_ok.1 h
    cases h
    exact ⟨⟨id, get?_of_find hid⟩, fun e _ => rfl⟩
  | live id own =>
    have h : ((Provider.live w).resolve (.live id own)).runFrom c = (.ok r, d) := h
    obtain ⟨-, rfl, hclaims⟩ := resolve_live_eq_ok h
    exact ⟨⟨id, hclaims⟩, fun e hext => congrArg some (hclaims.later hext).1⟩
  | other shown => cases h

/-- Names that are resolved one after another are resolved to what they are spelled as in the end. -/
theorem spellings_of_resolveAll {types : List TypeLike} {refs : List SymbolRef}
    (h : (types.mapM (resolve w)).runFrom c = (.ok refs, d)) : c.Extends d ∧ d.manifests = c.manifests ∧
      (∃ ids, List.Forall₂ (fun r id => d.classes.get? r.path = some id) refs ids) ∧
      List.Forall₂ (fun t r => d.spelling? w t = some r) types refs := by
  induction types generalizing c refs with
  | nil =>
    cases h
    exact ⟨Extends.refl _, rfl, ⟨[], .nil⟩, .nil⟩
  | cons t types ih =>
    rw [List.mapM_cons] at h
    obtain ⟨r, u, hr, h⟩ := Act.bind_eq_ok.1 h
    obtain ⟨rest, v, hrest, h⟩ := Act.bind_eq_ok.1 h
    cases h
    obtain ⟨hext, hmanifests, ⟨ids, hids⟩, hspellings⟩ := ih hrest
    obtain ⟨⟨id, hid⟩, hspelling⟩ := spelling_of_resolve hr
    exact ⟨(resolve_eq_ok hr).1.trans hext, hmanifests.trans (manifests_resolve hr), ⟨id :: ids, .cons (hext _ _ hid) hids⟩,
      .cons (hspelling d hext) hspellings⟩

end Roster

namespace Blueprint

open Roster

variable {c : Roster}

/-! ## Contributors -/

/-- Contributors are refused as repeated exactly if two of the references that they are resolved to have one path. -/
theorem resolveMix_repeated_iff {σ : Type} {p : Provider σ} {q : Request} {refs : List SymbolRef} {s s' : σ}
    (notices : List Notice) (h : ((q.base :: q.mixins).mapM p.resolve).runFrom s = (.ok refs, s')) :
    (∃ path, ((resolveMix p q).runFrom ⟨s, notices⟩).1 = .error (.refusal (.repeated path))) ↔
      ¬(refs.map SymbolRef.path).Nodup := by
  rw [List.mapM_cons] at h
  obtain ⟨base, u, hbase, h⟩ := Act.bind_eq_ok.1 h
  obtain ⟨mixins, v, hmixins, h⟩ := Act.bind_eq_ok.1 h
  cases h
  rw [← repeated?_eq_none_iff]
  unfold resolveMix
  rw [Act.runFrom_bind, Planner.runFrom_ask, hbase]
  dsimp only
  rw [Act.runFrom_bind, Planner.mapM_ask, Planner.runFrom_ask, hmixins]
  dsimp only
  cases repeated? [] (base :: mixins) with
  | some path => exact iff_of_true ⟨path, rfl⟩ (Option.some_ne_none path)
  | none =>
    refine iff_of_false ?_ fun hnone => hnone rfl
    rintro ⟨path, h⟩
    cases h

/-- A plan is refused as its contributors are. -/
theorem build_of_resolveMix_error {σ : Type} {p : Provider σ} {d : Defaults} {strict : Bool} {q : Request} {t : Planning σ}
    {failure : Failure} (hname : Text.isFreeName q.name = true) (h : ((resolveMix p q).runFrom t).1 = .error failure) :
    ((build p d strict q).runFrom t).1 = .error failure := by
  have houtline : ((outline p d strict q).runFrom t).1 = .error failure := by
    unfold outline
    rw [if_neg (by rw [hname]; decide), Act.runFrom_bind]
    generalize (resolveMix p q).runFrom t = r at h
    obtain ⟨r, u⟩ := r
    cases h
    rfl
  generalize hrun : (outline p d strict q).runFrom t = r at houtline
  obtain ⟨r, u⟩ := r
  cases houtline
  rw [build_of_outline_error hrun]

/-! ## Listed sets -/

/-- What is listed next to a base that is given in any words. -/
structure Lists (w : World) (d : Roster) (x : Mix) (base : Nat) (mixins : List Nat) (extra : List SymbolRef) : Prop where
  bound : d.classes.get? x.base.path = some base
  claims : ∀ id ∈ base :: mixins, d.ClaimsAbove w id
  above : extra ⊆ ((base :: mixins).flatMap w.capabilityAncestors).map (d.refTo w)
  mem : ∀ a ∈ (base :: mixins).flatMap w.capabilityAncestors, d.refTo w a ∈ extra ↔
    (d.refTo w a).path ≠ x.base.path ∧ a ∉ w.capabilityAncestors base ∧
      ∀ e ∈ (base :: mixins).flatMap w.capabilityAncestors, (d.refTo w e).path ≠ x.base.path →
        e ∉ w.capabilityAncestors base → a ∉ w.capabilityAncestors e

variable {x : Mix} {base : Nat} {mixins : List Nat}

/-- The sets whose references all have paths of their own. -/
theorem mem_map_path_refTo {d : Roster} {ids : List Nat} (hids : ∀ id ∈ ids, d.Claims w id) {a : Nat} (ha : d.Claims w a) :
    (d.refTo w a).path ∈ (ids.map (d.refTo w)).map SymbolRef.path ↔ a ∈ ids := by
  refine ⟨fun h => ?_, fun h => List.mem_map_of_mem (List.mem_map_of_mem h)⟩
  obtain ⟨r, hr, hpath⟩ := List.mem_map.1 h
  obtain ⟨b, hb, rfl⟩ := List.mem_map.1 hr
  rwa [← (hids b hb).eq_of_path ha hpath]

/-- The sets that stand apart from the base, among those of which all have references. -/
theorem mem_setsApart_iff {d : Roster} (habove : ∀ id ∈ base :: mixins, d.ClaimsAbove w id) {r : SymbolRef} :
    r ∈ x.setsApart ((base :: mixins).map fun id => (w.capabilityAncestors id).map (d.refTo w)) ↔
      ∃ a ∈ (base :: mixins).flatMap w.capabilityAncestors, r = d.refTo w a ∧ (d.refTo w a).path ≠ x.base.path ∧
        a ∉ w.capabilityAncestors base := by
  have hflat : ((base :: mixins).map fun id => (w.capabilityAncestors id).map (d.refTo w)).flatten =
      ((base :: mixins).flatMap w.capabilityAncestors).map (d.refTo w) := by
    rw [← List.flatMap_def, List.map_flatMap]
  have hpath : ∀ a ∈ (base :: mixins).flatMap w.capabilityAncestors,
      ((!(x.base.path :: ((w.capabilityAncestors base).map (d.refTo w)).map SymbolRef.path).contains (d.refTo w a).path) =
        true ↔ (d.refTo w a).path ≠ x.base.path ∧ a ∉ w.capabilityAncestors base) := by
    intro a ha
    obtain ⟨id, hid, ha⟩ := List.mem_flatMap.1 ha
    rw [Bool.not_eq_true', List.contains_eq_mem, decide_eq_false_iff_not, List.mem_cons, not_or,
      mem_map_path_refTo (habove base List.mem_cons_self) (habove id hid a ha)]
  rw [Mix.setsApart, List.mem_filter, mem_union, hflat, List.map_cons, List.headD_cons, List.mem_map]
  constructor
  · rintro ⟨⟨a, ha, rfl⟩, hapart⟩
    exact ⟨a, ha, rfl, (hpath a ha).1 hapart⟩
  · rintro ⟨a, ha, rfl, hapart⟩
    exact ⟨⟨a, ha, rfl⟩, (hpath a ha).2 hapart⟩

theorem lists_of_planHeader (ordered : w.IsOrdered) (hknows : c.Knows w)
    (bound : List.Forall₂ (fun r id => c.classes.get? r.path = some id) x.participants (base :: mixins)) {name : String}
    {r : Header × List SymbolRef} {notices : List Notice} {t' : Planning Roster}
    (h : (planHeader (Provider.live w) name x).runFrom ⟨c, notices⟩ = (.ok r, t')) : ∃ d, c.Extends d ∧
      d.Extends t'.provider ∧ Lists w d x base mixins r.2 ∧ ∀ path, path ∈ r.1.extraBases ↔ path ∈ r.2.map SymbolRef.path := by
  obtain ⟨d, hd, hext, hdknows, habove⟩ := capabilitySets_of_bound hknows bound
  have hlater : d.Extends t'.provider := by
    refine planHeader_keeps (Provider.keeps_extends w d) ?_ h
    rw [hd]
    exact Extends.refl d
  have hclaims : ∀ a ∈ (base :: mixins).flatMap w.capabilityAncestors, d.Claims w a ∧ d.ClaimsAbove w a := by
    intro a ha
    obtain ⟨id, hid, ha⟩ := List.mem_flatMap.1 ha
    exact ⟨habove id hid a ha, fun b hb => habove id hid b (World.capabilityAncestors_subset ordered ha hb)⟩
  have hserves : ∀ r ∈ ((base :: mixins).map fun id => (w.capabilityAncestors id).map (d.refTo w)).flatten,
      ∀ s, d.Extends s ∧ s.Knows w → ∃ s', ((Provider.live w).capabilitySets r).runFrom s = (.ok (d.setsTo w r), s') ∧
        d.Extends s' ∧ s'.Knows w := by
    intro r hr s hs
    rw [← List.flatMap_def, ← List.map_flatMap] at hr
    exact capabilitySets_above ordered habove hr hs
  obtain ⟨hsets, hextra, hlisted⟩ := planHeader_eq_of_served hd ⟨Extends.refl d, hdknows⟩ hserves h
  have hsub : ∀ s ∈ r.2, ∃ a ∈ (base :: mixins).flatMap w.capabilityAncestors, s = d.refTo w a := by
    intro s hs
    rw [hextra] at hs
    obtain ⟨a, ha, hsame, -⟩ := (mem_setsApart_iff habove).1 (List.mem_of_mem_filter hs)
    exact ⟨a, ha, hsame⟩
  refine ⟨d, hext, hlater, ⟨hext _ _ (List.forall₂_cons.1 bound).1, habove, fun s hs => ?_, fun a ha => ?_⟩, fun path => ?_⟩
  · obtain ⟨a, ha, rfl⟩ := hsub s hs
    exact List.mem_map_of_mem ha
  · -- What a set brings is told by paths, and these tell of classes which have references.
    have hbrought : (d.refTo w a).path ∈ ((x.setsApart ((base :: mixins).map fun id =>
        (w.capabilityAncestors id).map (d.refTo w))).flatMap (d.setsTo w)).map SymbolRef.path ↔
          ∃ e ∈ (base :: mixins).flatMap w.capabilityAncestors, (d.refTo w e).path ≠ x.base.path ∧
            e ∉ w.capabilityAncestors base ∧ a ∈ w.capabilityAncestors e := by
      simp only [List.map_flatMap, List.mem_flatMap (l := x.setsApart _), mem_setsApart_iff habove]
      constructor
      · rintro ⟨s, ⟨e, he, rfl, hne, hapart⟩, hpath⟩
        rw [setsTo_refTo (hclaims e he).1, mem_map_path_refTo (hclaims e he).2 (hclaims a ha).1] at hpath
        exact ⟨e, he, hne, hapart, hpath⟩
      · rintro ⟨e, he, hne, hapart, hmem⟩
        refine ⟨d.refTo w e, ⟨e, he, rfl, hne, hapart⟩, ?_⟩
        rw [setsTo_refTo (hclaims e he).1, mem_map_path_refTo (hclaims e he).2 (hclaims a ha).1]
        exact hmem
    rw [hextra, List.mem_filter, mem_setsApart_iff habove, Bool.not_eq_true', List.contains_eq_mem, decide_eq_false_iff_not,
      hbrought]
    constructor
    · rintro ⟨⟨b, hb, hsame, hne, hapart⟩, hmax⟩
      rw [← (hclaims a ha).1.injective (hclaims b hb).1 hsame] at hne hapart
      exact ⟨hne, hapart, fun e he hne' hapart' hmem => hmax ⟨e, he, hne', hapart', hmem⟩⟩
    · rintro ⟨hne, hapart, hmax⟩
      exact ⟨⟨a, ha, rfl, hne, hapart⟩, fun ⟨e, he, hne', hapart', hmem⟩ => hmax e he hne' hapart' hmem⟩
  · rw [hlisted, hsets, List.mem_filter, List.contains_eq_mem, decide_eq_true_eq, and_iff_right_iff_imp]
    refine fun hpath => List.map_subset _ (fun s hs => ?_) hpath
    rw [hextra] at hs
    exact List.mem_of_mem_filter (List.mem_of_mem_filter hs)

namespace Lists

variable {d : Roster} {extra : List SymbolRef} (ordered : w.IsOrdered) (h : Lists w d x base mixins extra)

include ordered h

/-- The base itself is listed exactly if it is given in other words than its own, and stands above a mixin, but above no
capability set of a mixin. -/
theorem exists_base_iff : (∃ r ∈ extra, d.classes.get? r.path = some base) ↔
    (d.refTo w base).path ≠ x.base.path ∧ (∃ id ∈ mixins, base ∈ w.capabilityAncestors id) ∧
      ∀ id ∈ mixins, ∀ e ∈ w.capabilityAncestors id, base ∉ w.capabilityAncestors e := by
  have hself : base ∉ w.capabilityAncestors base := fun hmem =>
    ((World.mem_capabilityAncestors ordered).1 hmem).2.1 rfl
  have hclaims : ∀ a ∈ (base :: mixins).flatMap w.capabilityAncestors, d.Claims w a := by
    intro a ha
    obtain ⟨id, hid, ha⟩ := List.mem_flatMap.1 ha
    exact h.claims id hid a ha
  have habove : base ∈ (base :: mixins).flatMap w.capabilityAncestors ↔ ∃ id ∈ mixins, base ∈ w.capabilityAncestors id := by
    simp [List.mem_flatMap, hself]
  constructor
  · rintro ⟨r, hr, hbound⟩
    obtain ⟨a, ha, rfl⟩ := List.mem_map.1 (h.above hr)
    have hsame : a = base := by
      rw [show d.classes.get? (d.refTo w a).path = some a from hclaims a ha] at hbound
      exact Option.some.inj hbound
    rw [hsame] at ha hr
    obtain ⟨hne, -, hmax⟩ := (h.mem base ha).1 hr
    refine ⟨hne, habove.1 ha, fun id hid e he hmem => ?_⟩
    have heabove : e ∈ (base :: mixins).flatMap w.capabilityAncestors :=
      List.mem_flatMap.2 ⟨id, List.mem_cons_of_mem _ hid, he⟩
    obtain ⟨horder, hne', -⟩ := (World.mem_capabilityAncestors ordered).1 hmem
    refine hmax e heabove (fun hpath => ?_) (fun hbrought => ?_) hmem
    · have hid := h.bound
      rw [← hpath, show d.classes.get? (d.refTo w e).path = some e from hclaims e heabove] at hid
      exact hne' (Option.some.inj hid).symm
    · exact hne' (ordered.eq_of_mem_order ((World.mem_capabilityAncestors ordered).1 hbrought).1 horder).symm
  · rintro ⟨hne, hexists, hmax⟩
    have ha := habove.2 hexists
    refine ⟨d.refTo w base, (h.mem base ha).2 ⟨hne, hself, fun e he _ hapart hmem => ?_⟩, hclaims base ha⟩
    obtain ⟨id, hid, hset⟩ := List.mem_flatMap.1 he
    rcases List.mem_cons.1 hid with rfl | hid
    · exact hapart hset
    · exact hmax id hid e hset hmem

end Lists

/-- What a plan of live classes lists next to its base, as generated code has it. -/
theorem lists_of_build (ordered : w.IsOrdered) (hknows : c.Knows w) {d : Defaults} {strict : Bool} {q : Request}
    {b : Blueprint} {notices : List Notice} {t' : Planning Roster}
    (built : (build (Provider.live w) d strict q).runFrom ⟨c, notices⟩ = (.ok b, t')) : ∃ base mixins,
      List.Forall₂ (fun path id => b.bindings.get? path = some (.cls id)) (b.header.base :: b.header.mixins)
        (base :: mixins) ∧
      ((∃ path ∈ b.header.extraBases, b.bindings.get? path = some (.cls base)) ↔
        (t'.provider.refTo w base).path ≠ b.header.base ∧ (∃ id ∈ mixins, base ∈ w.capabilityAncestors id) ∧
          ∀ id ∈ mixins, ∀ e ∈ w.capabilityAncestors id, base ∉ w.capabilityAncestors e) := by
  obtain ⟨o, v, claims, ho, hclaims, rfl⟩ := build_eq_ok built
  have hsame : t'.provider = v.provider := by
    rw [build_of_outline ho, hclaims] at built
    cases built
    rfl
  rw [hsame]
  obtain ⟨u, y, hmix, hheader, hkeeps, -⟩ := stages_of_outline ho
  -- The contributors are bound to classes, and stay so.
  have hresolved : ((q.base :: q.mixins).mapM (resolve w)).runFrom c = (.ok o.mix.participants, u.provider) := by
    have hresolved := participants_of_resolveMix hmix
    rw [Planner.mapM_ask] at hresolved
    exact Planner.ask_eq_ok hresolved
  obtain ⟨hext, hmanifests, ⟨ids, hids⟩, -⟩ := spellings_of_resolveAll hresolved
  obtain ⟨base, mixins, -, -, rfl⟩ := List.forall₂_cons_left_iff.1 hids
  obtain ⟨e, hexte, hlater, lists, hpaths⟩ := lists_of_planHeader ordered (hknows.later hext hmanifests) hids hheader
  have hend : e.Extends v.provider := hkeeps (Provider.keeps_extends w e) hlater
  have hclaimed : ∀ a ∈ (base :: mixins).flatMap w.capabilityAncestors, e.Claims w a := by
    intro a ha
    obtain ⟨id, hid, ha⟩ := List.mem_flatMap.1 ha
    exact lists.claims id hid a ha
  refine ⟨base, mixins, ?_, ?_⟩
  · show List.Forall₂ _ (o.header.base :: o.header.mixins) _
    rw [paths_of_planHeader hheader, List.forall₂_map_left_iff]
    refine ((List.forall₂_and_left _ _).2 ⟨fun r hr => hr, hids⟩).imp ?_
    rintro r id ⟨hr, hid⟩
    have hmem := List.mem_map_of_mem (f := SymbolRef.path) (List.mem_append_left o.extra hr)
    exact (Session.claims_of_mem hclaims hmem (hend _ _ (hexte _ _ hid))).2
  · have hbase : o.header.base = o.mix.base.path := (List.cons.inj (paths_of_planHeader hheader)).1
    have hbound : ∀ r ∈ o.extra, ∀ id, e.classes.get? r.path = some id →
        (ofClaims o claims).bindings.get? r.path = some (.cls id) := by
      intro r hr id hid
      have hmem := List.mem_map_of_mem (f := SymbolRef.path) (List.mem_append_right o.mix.participants hr)
      exact (Session.claims_of_mem hclaims hmem (hend _ _ hid)).2
    have hextra : (∃ path ∈ (ofClaims o claims).header.extraBases,
        (ofClaims o claims).bindings.get? path = some (.cls base)) ↔ ∃ r ∈ o.extra, e.classes.get? r.path = some base := by
      constructor
      · rintro ⟨path, hpath, hbinding⟩
        obtain ⟨r, hr, rfl⟩ := List.mem_map.1 ((hpaths path).1 hpath)
        obtain ⟨a, ha, rfl⟩ := List.mem_map.1 (lists.above hr)
        rw [hbound _ hr a (hclaimed a ha)] at hbinding
        cases hbinding
        exact ⟨_, hr, hclaimed base ha⟩
      · rintro ⟨r, hr, hid⟩
        exact ⟨r.path, (hpaths _).2 (List.mem_map_of_mem hr), hbound r hr base hid⟩
    rw [hextra, lists.exists_base_iff ordered, show (ofClaims o claims).header.base = o.mix.base.path from hbase]
    refine and_congr_left fun ⟨⟨id, hid, hmem⟩, _⟩ => ?_
    rw [((hclaimed base (List.mem_flatMap.2 ⟨id, List.mem_cons_of_mem _ hid, hmem⟩)).later hend).1]

end Blueprint

/-- No class is made of bases one of which is listed twice. -/
theorem World.create_of_repeated {base : Nat} {ids : List Nat} {draft : World.Draft} (hbases : draft.bases = base :: ids)
    (hmem : base ∈ ids) : (World.create draft).runFrom w = (.error (.fault .type), w) := by
  have hrepeats : World.hasRepeats draft.bases = true := by
    rw [hbases, World.hasRepeats, List.contains_eq_mem, decide_eq_true hmem, Bool.true_or]
  unfold World.create
  rw [Act.runFrom_bind, Act.runFrom_get]
  dsimp only
  rw [if_pos hrepeats]
  rfl

/--
Which names of a class a provider takes for the same. Let a new provider of live classes be asked anything, while the modules
of the program change as they like. A name that can be resolved, be it a class object, a text or a reference, stands for a
class from then on; and of two names, also if they stand for one class, and however long after the first the second is
resolved, both have the same reference exactly if they are spelled the same, a class object as the reference of its own.
The contributors of a request are resolved to what they are spelled as, and refused as repeated exactly if two of these have
one path. And the class that is the base is listed next to the base exactly if the base is not given by the path of the class
object, the class is a capability set of a mixin, and no capability set of a mixin extends it; no class is then made of the
bases.
-/
theorem Blueprint.recognized_iff (ordered : w.IsOrdered) (history : List Roster.Question) (d : Defaults) (strict : Bool) :
    let c := Roster.askedAll w {} history
    let p := Provider.live w
    (∀ t t' later now r r' c₁ c₂, (p.resolve t).runFrom c = (.ok r, c₁) →
        ((Provider.live (w.importing now)).resolve t').runFrom (c₁.askedAll w later) = (.ok r', c₂) →
        (∃ id id', p.binding r c₂ = some (.cls id) ∧ p.binding r' c₂ = some (.cls id')) ∧
          (r = r' ↔ c₂.spelling? w t = c₂.spelling? w t')) ∧
      (∀ (q : Request) notices refs e, ((q.base :: q.mixins).mapM p.resolve).runFrom c = (.ok refs, e) →
        List.Forall₂ (fun t r => e.spelling? w t = some r) (q.base :: q.mixins) refs ∧
          ((∃ path, ((resolveMix p q).runFrom ⟨c, notices⟩).1 = .error (.refusal (.repeated path))) ↔
            ¬(refs.map SymbolRef.path).Nodup) ∧
          (Text.isFreeName q.name = true → ¬(refs.map SymbolRef.path).Nodup →
            ∃ path, ((build p d strict q).runFrom ⟨c, notices⟩).1 = .error (.refusal (.repeated path)))) ∧
      ∀ q notices b t', (build p d strict q).runFrom ⟨c, notices⟩ = (.ok b, t') → ∃ base mixins,
        List.Forall₂ (fun path id => b.bindings.get? path = some (.cls id)) (b.header.base :: b.header.mixins)
          (base :: mixins) ∧
        ((∃ path ∈ b.header.extraBases, b.bindings.get? path = some (.cls base)) ↔
          (t'.provider.refTo w base).path ≠ b.header.base ∧ (∃ id ∈ mixins, base ∈ w.capabilityAncestors id) ∧
            ∀ id ∈ mixins, ∀ e ∈ w.capabilityAncestors id, base ∉ w.capabilityAncestors e) ∧
        ((∃ path ∈ b.header.extraBases, b.bindings.get? path = some (.cls base)) → ∀ listed (draft : World.Draft),
          List.Forall₂ (fun path id => b.bindings.get? path = some (.cls id)) b.header.extraBases listed →
            draft.bases = base :: listed → (World.create draft).runFrom w = (.error (.fault .type), w)) := by
  intro c p
  have hnew : Roster.Knows w {} := fun path m hm => nomatch hm
  have hknows : c.Knows w := (Roster.knows_askedAll hnew history).2
  refine ⟨fun t t' later now r r' c₁ c₂ ht ht' => ?_, fun q notices refs e hrefs => ?_, fun q notices b t' built => ?_⟩
  · obtain ⟨⟨id, hid⟩, hspelling⟩ := Roster.spelling_of_resolve ht
    obtain ⟨⟨id', hid'⟩, hspelling'⟩ := Roster.spelling_of_resolve (w := w.importing now) ht'
    have hknows₁ : c₁.Knows w := hknows.later (Roster.resolve_eq_ok ht).1 (Roster.manifests_resolve ht)
    have hext : c₁.Extends c₂ :=
      (Roster.knows_askedAll hknows₁ later).1.trans (Roster.resolve_eq_ok (w := w.importing now) ht').1
    refine ⟨⟨id, id', congrArg (Option.map Handle.cls) (hext _ _ hid), congrArg (Option.map Handle.cls) hid'⟩, ?_⟩
    have hr' : c₂.spelling? w t' = some r' := hspelling' c₂ (Roster.Extends.refl c₂)
    rw [hspelling c₂ hext, hr', Option.some_inj]
  · obtain ⟨-, -, -, hspellings⟩ := Roster.spellings_of_resolveAll hrefs
    have hiff := resolveMix_repeated_iff notices hrefs
    refine ⟨hspellings, hiff, fun hname hrepeated => ?_⟩
    obtain ⟨path, hpath⟩ := hiff.2 hrepeated
    exact ⟨path, build_of_resolveMix_error hname hpath⟩
  · obtain ⟨base, mixins, hbound, hiff⟩ := lists_of_build ordered hknows built
    refine ⟨base, mixins, hbound, hiff, fun ⟨path, hpath, hbinding⟩ listed draft hlisted hdraft => ?_⟩
    obtain ⟨id, hid, hsame⟩ := Outcome.exists_mem_of_forall₂ hlisted hpath
    rw [hbinding] at hsame
    cases hsame
    exact World.create_of_repeated hdraft hid

/-- What has a price is a class of a store, and of an outlet, which is a store; a rebate has a price. -/
def World.nested : World :=
  { fresh with
    classes := fresh.classes ++
      #[{ name := "Priced", qualname := "Store.Priced", home := "shop", bases := [abcId],
          order := [absentId + 1, abcId, objectId], hasAbstracts := true },
        { name := "Store", qualname := "Store", home := "shop", order := [absentId + 2, objectId],
          slots := [("Priced", .value (.cls (absentId + 1)))] },
        { name := "Outlet", qualname := "Outlet", home := "shop", bases := [absentId + 2],
          order := [absentId + 3, absentId + 2, objectId] },
        { name := "Rebate", qualname := "Rebate", home := "shop", bases := [absentId + 1],
          order := [absentId + 4, absentId + 1, abcId, objectId], hasAbstracts := true }]
    modules := fresh.modules.push { name := "shop", names := [("Store", .cls (absentId + 2)), ("Outlet", .cls (absentId + 3))] }
    loaded := fresh.loaded.put "shop" fresh.modules.size }

theorem World.isOrdered_nested : World.nested.IsOrdered :=
  ⟨by decide +kernel, by decide +kernel, by decide +kernel, by decide +kernel⟩

def Request.nested : Request :=
  { name := "Sale", base := .text "shop:Outlet.Priced", mixins := [.live 10 ⟨"shop", "Rebate"⟩] }

/-- What has a price has one reference as a class, and another one as a class of the outlet; so it is listed next to itself. -/
theorem Blueprint.recognized_iff_nested : World.nested.IsOrdered ∧
    (∃ r r' c₁ c₂, ((Provider.live .nested).resolve (.live 7 ⟨"shop", "Store.Priced"⟩)).runFrom {} = (.ok r, c₁) ∧
      ((Provider.live .nested).resolve (.text "shop:Outlet.Priced")).runFrom c₁ = (.ok r', c₂) ∧
      (Provider.live .nested).binding r c₂ = some (.cls 7) ∧ (Provider.live .nested).binding r' c₂ = some (.cls 7) ∧ r ≠ r') ∧
    ∃ b t', (build (Provider.live .nested) Session.defaults true .nested).runFrom ⟨{}, []⟩ = (.ok b, t') ∧
      b.header.base = "shop:Outlet.Priced" ∧ b.header.extraBases = ["shop:Store.Priced"] ∧
      b.bindings.get? "shop:Outlet.Priced" = some (.cls 7) ∧ b.bindings.get? "shop:Store.Priced" = some (.cls 7) ∧
      ∀ draft : World.Draft, draft.bases = [7, 7] → (World.create draft).runFrom .nested = (.error (.fault .type), .nested) := by
  obtain ⟨-, -, hbuilt⟩ := recognized_iff World.isOrdered_nested [] Session.defaults true
  refine ⟨World.isOrdered_nested, ?_, ?_⟩
  · have hlive : ((Provider.live .nested).resolve (.live 7 ⟨"shop", "Store.Priced"⟩)).runFrom {} =
        (.ok ⟨"shop", "Store.Priced"⟩, { classes := [("shop:Store.Priced", 7)] }) := rfl
    generalize hrun : ((Provider.live .nested).resolve (.text "shop:Outlet.Priced")).runFrom
      ({ classes := [("shop:Store.Priced", 7)] } : Roster) = text
    have htext : text.1.toOption = some ⟨"shop", "Outlet.Priced"⟩ ∧
        text.2.classes = [("shop:Store.Priced", 7), ("shop:Outlet.Priced", 7)] := by
      rw [← hrun]
      decide +kernel
    obtain ⟨outcome, c₂⟩ := text
    obtain ⟨hr', hclasses⟩ := htext
    obtain rfl := Outcome.eq_ok_of_toOption hr'
    have hbinding : ∀ r : SymbolRef, (Provider.live .nested).binding r c₂ = (c₂.classes.get? r.path).map Handle.cls :=
      fun r => rfl
    rw [hclasses] at hbinding
    exact ⟨_, _, _, c₂, hlive, hrun, hbinding _, hbinding _, by decide⟩
  · generalize hrun : (build (Provider.live .nested) Session.defaults true .nested).runFrom (⟨{}, []⟩ : Planning Roster) = r
    have hheader : (r.1.toOption.map fun b => (b.header.base, b.header.extraBases, b.bindings.get? "shop:Outlet.Priced",
        b.bindings.get? "shop:Store.Priced")) =
          some ("shop:Outlet.Priced", ["shop:Store.Priced"], some (.cls 7), some (.cls 7)) := by
      rw [← hrun]
      decide +kernel
    obtain ⟨outcome, t'⟩ := r
    cases outcome with
    | error e => cases hheader
    | ok b =>
      have hheader := Option.some.inj hheader
      simp only [Prod.mk.injEq] at hheader
      obtain ⟨hbase, hextra, hbound, hlisted⟩ := hheader
      refine ⟨b, t', rfl, hbase, hextra, hbound, hlisted, fun draft hdraft => ?_⟩
      obtain ⟨base, mixins, hclasses, -, hfails⟩ := hbuilt _ _ _ _ hrun
      obtain rfl : base = 7 := by
        have hclass := (List.forall₂_cons.1 hclasses).1
        rw [hbase, hbound] at hclass
        exact (Handle.cls.inj (Option.some.inj hclass)).symm
      rw [hextra] at hfails
      exact hfails ⟨_, List.mem_singleton_self _, hlisted⟩ [7] draft (.cons hlisted .nil) hdraft

end Amalgam
