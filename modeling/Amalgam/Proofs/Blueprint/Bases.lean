import Amalgam.Proofs.Blueprint.Registration
import Mathlib.Data.Fintype.Card
import Mathlib.Data.Set.Finite.List

/-!
# The capability sets of a composite

A composite lists, next to its base, those capability sets of its contributors that no other class of the list brings. What
a provider says of classes is taken as a function from classes to the sets they inherit (`Provider.Serves`); where that is
inheritance (`IsLineage`), the sets that are not listed all go back to the base or to a listed set
(`Blueprint.exists_uppermost`), however long the chain of sets between them.
-/

namespace Amalgam

variable {σ : Type}

/--
From a state on, the provider says of some contributors, which are asked in order, and then of any set that one of them
inherits, which sets it inherits.
-/
def Provider.Serves (p : Provider σ) (s : σ) (contributors : List SymbolRef) (sets : SymbolRef → List SymbolRef) : Prop :=
  ∃ (Inv : σ → Prop) (s' : σ), (contributors.mapM p.capabilitySets).runFrom s = (.ok (contributors.map sets), s') ∧ Inv s' ∧
    ∀ r ∈ contributors.flatMap sets, ∀ s, Inv s → ∃ s', (p.capabilitySets r).runFrom s = (.ok (sets r), s') ∧ Inv s'

/-- What a provider says without changing its state it says at any time. -/
theorem Provider.serves_of_settled {p : Provider σ} {s : σ} {contributors : List SymbolRef}
    {sets : SymbolRef → List SymbolRef}
    (h : ∀ r ∈ contributors ++ contributors.flatMap sets, (p.capabilitySets r).runFrom s = (.ok (sets r), s)) :
    p.Serves s contributors sets := by
  refine ⟨(· = s), s, ?_, rfl, fun r hr s' hs' => ⟨s, hs' ▸ h r (List.mem_append_right _ hr), rfl⟩⟩
  have hcontributors : ∀ r ∈ contributors, (p.capabilitySets r).runFrom s = (.ok (sets r), s) := fun r hr =>
    h r (List.mem_append_left _ hr)
  clear h
  induction contributors with
  | nil => rfl
  | cons r rest ih =>
    rw [List.mapM_cons]
    refine Act.bind_eq_ok.2 ⟨sets r, s, hcontributors r List.mem_cons_self, Act.bind_eq_ok.2 ⟨rest.map sets, s, ?_, rfl⟩⟩
    exact ih fun r hr => hcontributors r (List.mem_cons_of_mem _ hr)

/-- The sets that the manifest of a class names. -/
def Provider.setsIn (ms : List Manifest) (r : SymbolRef) : List SymbolRef :=
  (((table ms).get? r.path).map Manifest.capabilitySets).getD []

theorem Provider.serves_ofManifests {ms : List Manifest} {contributors : List SymbolRef}
    (h : ∀ r ∈ contributors ++ contributors.flatMap (setsIn ms), (table ms).has r.path = true) :
    (ofManifests ms).Serves () contributors (setsIn ms) := by
  refine serves_of_settled fun r hr => ?_
  obtain ⟨m, hm⟩ := Option.isSome_iff_exists.1 (h r hr)
  refine Act.bind_eq_ok.2 ⟨m, (), manifest_ofManifests hm (), ?_⟩
  rw [setsIn, hm]
  rfl

/-- Among some contributors and the sets they inherit, to inherit is transitive, nothing inherits itself, and each class has
a path of its own. -/
structure IsLineage (contributors : List SymbolRef) (sets : SymbolRef → List SymbolRef) : Prop where
  upward : ∀ r ∈ contributors ++ contributors.flatMap sets, ∀ s ∈ sets r, sets s ⊆ sets r
  acyclic : ∀ r ∈ contributors ++ contributors.flatMap sets, r ∉ sets r
  distinct : ∀ r ∈ contributors ++ contributors.flatMap sets, ∀ s ∈ contributors ++ contributors.flatMap sets,
    r.path = s.path → r = s

namespace Blueprint

/-! ## What is listed -/

/-- The sets that the base does not bring. -/
def Mix.ownSets (x : Mix) (sets : SymbolRef → List SymbolRef) : List SymbolRef :=
  (union (x.participants.flatMap sets)).filter fun s => s ≠ x.base ∧ s ∉ sets x.base

/-- The sets that neither the base nor another set brings. -/
def Mix.listed (x : Mix) (sets : SymbolRef → List SymbolRef) : List SymbolRef :=
  (x.ownSets sets).filter fun s => s ∉ (x.ownSets sets).flatMap sets

variable {x : Mix} {sets : SymbolRef → List SymbolRef}

theorem mem_ownSets {s : SymbolRef} :
    s ∈ x.ownSets sets ↔ s ∈ x.participants.flatMap sets ∧ s ≠ x.base ∧ s ∉ sets x.base := by
  simp [Mix.ownSets]

theorem mem_listed {s : SymbolRef} :
    s ∈ x.listed sets ↔ s ∈ x.ownSets sets ∧ ∀ e ∈ x.ownSets sets, s ∉ sets e := by
  simp [Mix.listed]

/-- The listed sets stand in the order of the union. -/
theorem filter_mem_listed :
    (union (x.participants.flatMap sets)).filter (fun s => s ∈ x.listed sets) = x.listed sets := by
  conv_rhs => rw [Mix.listed, Mix.ownSets, List.filter_filter]
  refine List.filter_congr fun s hs => ?_
  show _ = (decide (s ∉ (x.ownSets sets).flatMap sets) && decide (s ≠ x.base ∧ s ∉ sets x.base))
  have hlisted : s ∈ x.listed sets ↔ s ∈ x.ownSets sets ∧ s ∉ (x.ownSets sets).flatMap sets := by
    simp only [Mix.listed, List.mem_filter, decide_eq_true_eq]
  rw [← Bool.decide_and, decide_eq_decide, hlisted, mem_ownSets, and_comm, and_iff_right (mem_union.1 hs)]

section Lineage

variable {contributors : List SymbolRef} (lineage : IsLineage contributors sets)

include lineage

/-- Of classes that each have a path of their own, a path tells which are meant. -/
theorem mem_map_path {r : SymbolRef} {rs : List SymbolRef} (hr : r ∈ contributors ++ contributors.flatMap sets)
    (hrs : rs ⊆ contributors ++ contributors.flatMap sets) : r.path ∈ rs.map SymbolRef.path ↔ r ∈ rs := by
  refine ⟨fun h => ?_, List.mem_map_of_mem⟩
  obtain ⟨s, hs, hpath⟩ := List.mem_map.1 h
  rwa [lineage.distinct r hr s (hrs hs) hpath.symm]

/-- The sets that a set brings are sets of the contributors too. -/
theorem sets_subset {s : SymbolRef} (hs : s ∈ contributors.flatMap sets) : sets s ⊆ contributors.flatMap sets := by
  obtain ⟨r, hr, hsr⟩ := List.mem_flatMap.1 hs
  exact fun e he => List.mem_flatMap.2 ⟨r, hr, lineage.upward r (List.mem_append_left _ hr) s hsr he⟩

/-- Above every set of a list there is one, perhaps the set itself, that no set of the list brings. -/
theorem exists_uppermost {own : List SymbolRef} (hown : own ⊆ contributors.flatMap sets) {s : SymbolRef} (hs : s ∈ own) :
    ∃ e ∈ own, (s = e ∨ s ∈ sets e) ∧ ∀ e' ∈ own, e ∉ sets e' := by
  have family : ∀ e : {r // r ∈ own}, e.1 ∈ contributors ++ contributors.flatMap sets := fun e =>
    List.mem_append_right _ (hown e.2)
  have : Finite {r // r ∈ own} := own.finite_toSet.to_subtype
  let above : {r // r ∈ own} → {r // r ∈ own} → Prop := fun e s => s.1 ∈ sets e.1
  have : IsTrans _ above := ⟨fun a b c hab hbc => lineage.upward a.1 (family a) b.1 hab hbc⟩
  have : Std.Irrefl above := ⟨fun a => lineage.acyclic a.1 (family a)⟩
  have wf : WellFounded above := Finite.wellFounded_of_trans_of_irrefl above
  -- Going up from a set, to one that brings it, comes to an end.
  induction hindex : (⟨s, hs⟩ : {r // r ∈ own}) using wf.induction generalizing s with
  | _ s' ih =>
    subst hindex
    by_cases htop : ∃ e' ∈ own, s ∈ sets e'
    · obtain ⟨e', he', hse'⟩ := htop
      obtain ⟨e, he, hle, hmax⟩ := ih ⟨e', he'⟩ hse' he' rfl
      refine ⟨e, he, Or.inr ?_, hmax⟩
      rcases hle with rfl | hle
      · exact hse'
      · exact lineage.upward e (List.mem_append_right _ (hown he)) e' hle hse'
    · exact ⟨s, hs, Or.inl rfl, fun e' he' hse' => htop ⟨e', he', hse'⟩⟩

end Lineage

/-- Every set that some contributor brings is the base or brought by it, or is listed or brought by a listed set. -/
theorem covered_by_listed (lineage : IsLineage x.participants sets) {s : SymbolRef}
    (hs : s ∈ x.participants.flatMap sets) :
    s = x.base ∨ s ∈ sets x.base ∨ s ∈ x.listed sets ∨ ∃ e ∈ x.listed sets, s ∈ sets e := by
  by_cases hbase : s = x.base
  · exact Or.inl hbase
  by_cases hown : s ∈ sets x.base
  · exact Or.inr (Or.inl hown)
  obtain ⟨e, he, hle, hmax⟩ := exists_uppermost lineage (fun r hr => (mem_ownSets.1 hr).1) (mem_ownSets.2 ⟨hs, hbase, hown⟩)
  have hlisted : e ∈ x.listed sets := mem_listed.2 ⟨he, hmax⟩
  rcases hle with rfl | hle
  · exact Or.inr (Or.inr (Or.inl hlisted))
  · exact Or.inr (Or.inr (Or.inr ⟨e, hlisted, hle⟩))

/-- Nothing is listed that the base or another listed set brings. -/
theorem not_brought_of_listed {s : SymbolRef} (hs : s ∈ x.listed sets) :
    s ≠ x.base ∧ s ∉ sets x.base ∧ ∀ e ∈ x.listed sets, s ∉ sets e := by
  obtain ⟨hown, hmax⟩ := mem_listed.1 hs
  exact ⟨(mem_ownSets.1 hown).2.1, (mem_ownSets.1 hown).2.2, fun e he => hmax e (mem_listed.1 he).1⟩

/-! ## The header of a plan -/

variable {p : Provider σ}

theorem implied_of_serves {Inv : σ → Prop} {rs : List SymbolRef} {t : Planning σ} (good : Inv t.provider)
    (serves : ∀ r ∈ rs, ∀ s, Inv s → ∃ s', (p.capabilitySets r).runFrom s = (.ok (sets r), s') ∧ Inv s') :
    ∃ t', (implied p rs).runFrom t = (.ok ((rs.flatMap sets).map SymbolRef.path), t') := by
  induction rs generalizing t with
  | nil => exact ⟨t, rfl⟩
  | cons r rs ih =>
    obtain ⟨s', hs', good'⟩ := serves r List.mem_cons_self t.provider good
    have hask : (Planner.ask (p.capabilitySets r)).runFrom t = (.ok (sets r), { t with provider := s' }) := by
      rw [Planner.runFrom_ask, hs']
    obtain ⟨t', ht'⟩ := ih (t := { t with provider := s' }) good' fun r hr => serves r (List.mem_cons_of_mem _ hr)
    refine ⟨t', Act.bind_eq_ok.2 ⟨sets r, _, setsAbove_of_ok hask, Act.bind_eq_ok.2 ⟨_, t', ht', ?_⟩⟩⟩
    rw [List.flatMap_cons, List.map_append]
    rfl

/-- What is left of a list when all but some items are taken away. -/
theorem filter_not_filter_not (cs : List String) (keep : String → Bool) :
    cs.filter (fun c => !(cs.filter fun c => !keep c).contains c) = cs.filter keep := by
  refine List.filter_congr fun c hc => ?_
  simp [List.contains_eq_mem, hc]

/-- Of the sets that are served, those with a path that is neither the base's nor that of a set of the base. -/
def Mix.setsApart (x : Mix) (served : List (List SymbolRef)) : List SymbolRef :=
  (union served.flatten).filter fun r => !(x.base.path :: (served.headD []).map SymbolRef.path).contains r.path

/-- A header names all sets that are served, and lists those of them with a path that is neither known from the base nor
brought by another set. -/
theorem planHeader_eq_of_served {Inv : σ → Prop} {name : String} {r : Header × List SymbolRef}
    {served : List (List SymbolRef)} {s' : σ} {t t' : Planning σ}
    (hserved : (x.participants.mapM p.capabilitySets).runFrom t.provider = (.ok served, s')) (good : Inv s')
    (serves : ∀ r ∈ served.flatten, ∀ s, Inv s → ∃ s', (p.capabilitySets r).runFrom s = (.ok (sets r), s') ∧ Inv s')
    (h : (planHeader p name x).runFrom t = (.ok r, t')) :
    r.1.capabilitySets = (union served.flatten).map SymbolRef.path ∧
      r.2 = (x.setsApart served).filter (fun s =>
        !(((x.setsApart served).flatMap sets).map SymbolRef.path).contains s.path) ∧
      r.1.extraBases = r.1.capabilitySets.filter (r.2.map SymbolRef.path).contains := by
  obtain ⟨served', u, hserved', h⟩ := Act.bind_eq_ok.1 h
  rw [Planner.mapM_ask, Planner.runFrom_ask, hserved, Prod.mk.injEq] at hserved'
  obtain ⟨hserved', rfl⟩ := hserved'
  obtain rfl := Except.ok.inj hserved'
  obtain ⟨extra, v, hextra, h⟩ := Act.bind_eq_ok.1 h
  cases h
  obtain ⟨above, v', habove, hextra⟩ := Act.bind_eq_ok.1 hextra
  have hserves : ∀ r ∈ x.setsApart served, ∀ s, Inv s → ∃ s', (p.capabilitySets r).runFrom s = (.ok (sets r), s') ∧ Inv s' :=
    fun r hr => serves r (mem_union.1 (List.mem_of_mem_filter hr))
  obtain ⟨w, hw⟩ := @implied_of_serves _ _ _ _ _ { t with provider := s' } good hserves
  rw [Mix.setsApart] at hw
  rw [hw] at habove
  cases habove
  cases hextra
  exact ⟨rfl, rfl, filter_not_filter_not _ _⟩

/-- A header names all sets of the contributors, and lists those that inheritance tells to list. -/
theorem planHeader_of_serves {name : String} {r : Header × List SymbolRef} {t t' : Planning σ}
    (serves : p.Serves t.provider x.participants sets) (lineage : IsLineage x.participants sets)
    (h : (planHeader p name x).runFrom t = (.ok r, t')) :
    r.1.capabilitySets = (union (x.participants.flatMap sets)).map SymbolRef.path ∧ r.2 = x.listed sets ∧
      r.1.extraBases = (x.listed sets).map SymbolRef.path := by
  obtain ⟨Inv, s', hserved, good, serves⟩ := serves
  rw [List.flatMap_def] at serves
  obtain ⟨hsets, hlisted, hextra⟩ := planHeader_eq_of_served hserved good serves h
  rw [← List.flatMap_def] at hsets
  have hfamily : ∀ {rs : List SymbolRef}, rs ⊆ x.participants.flatMap sets →
      rs ⊆ x.participants ++ x.participants.flatMap sets := fun hrs r hr => List.mem_append_right _ (hrs hr)
  have hall : union (x.participants.flatMap sets) ⊆ x.participants.flatMap sets := fun r hr => mem_union.1 hr
  have hown : x.ownSets sets ⊆ x.participants.flatMap sets := fun r hr => (mem_ownSets.1 hr).1
  -- The sets that the plan takes apart from the base by their paths are those that the base does not bring.
  have hapart : x.setsApart (x.participants.map sets) = x.ownSets sets := by
    rw [Mix.setsApart, ← List.flatMap_def, show (x.participants.map sets).headD [] = sets x.base from rfl]
    refine List.filter_congr fun r hr => ?_
    have hbrought : x.base :: sets x.base ⊆ x.participants ++ x.participants.flatMap sets := by
      refine List.cons_subset.2 ⟨List.mem_append_left _ List.mem_cons_self, hfamily fun s hs => ?_⟩
      exact List.mem_flatMap.2 ⟨x.base, List.mem_cons_self, hs⟩
    have hpath := mem_map_path lineage (hfamily hall hr) hbrought
    rw [List.map_cons] at hpath
    rw [List.contains_eq_mem, ← decide_not, decide_eq_decide, hpath, List.mem_cons, not_or]
  have hlisted : r.2 = x.listed sets := by
    rw [hlisted, hapart]
    refine List.filter_congr fun r hr => ?_
    have habove : (x.ownSets sets).flatMap sets ⊆ x.participants.flatMap sets := fun s hs => by
      obtain ⟨e, he, hs⟩ := List.mem_flatMap.1 hs
      exact sets_subset lineage (hown he) hs
    rw [List.contains_eq_mem, ← decide_not, decide_eq_decide,
      mem_map_path lineage (hfamily hown hr) (hfamily habove)]
  refine ⟨hsets, hlisted, ?_⟩
  have hsub : x.listed sets ⊆ union (x.participants.flatMap sets) := fun r hr =>
    List.mem_of_mem_filter (List.mem_of_mem_filter hr)
  rw [hextra, hsets, hlisted, List.filter_map]
  conv_rhs => rw [← filter_mem_listed]
  refine congrArg (List.map SymbolRef.path) (List.filter_congr fun r hr => ?_)
  rw [Function.comp_apply, List.contains_eq_mem, decide_eq_decide]
  exact mem_map_path lineage (hfamily hall hr) (hfamily fun s hs => hall (hsub hs))

/-- What holds of the provider once the contributors are asked holds when the header is planned. -/
theorem planHeader_keeps {Inv : σ → Prop} {Good : SymbolRef → Manifest → Prop} (keeps : p.Keeps Inv Good) {name : String}
    {r : Header × List SymbolRef} {t t' : Planning σ}
    (good : Inv ((x.participants.mapM p.capabilitySets).runFrom t.provider).2)
    (h : (planHeader p name x).runFrom t = (.ok r, t')) : Inv t'.provider := by
  obtain ⟨served, u, hserved, h⟩ := Act.bind_eq_ok.1 h
  obtain ⟨extra, v, hextra, h⟩ := Act.bind_eq_ok.1 h
  cases h
  rw [Planner.mapM_ask] at hserved
  rw [Planner.ask_eq_ok hserved] at good
  exact (minimal_eq_ok keeps good hextra).2

/--
The sets of a composite. Where what the provider says of the contributors and of the sets they inherit is inheritance among
classes with paths of their own, the header names every set of a contributor once, in the order in which they are first
met. Each of them is the base, inherited by the base, listed next to it, or inherited by a listed set; and no listed set is
the base, or inherited by the base or by another listed set.
-/
theorem capabilitySets_listed {p : Provider σ} {d : Defaults} {strict : Bool} {q : Request} {x : Mix} {b : Blueprint}
    {sets : SymbolRef → List SymbolRef} {t u t' : Planning σ} (resolved : (resolveMix p q).runFrom t = (.ok x, u))
    (built : (build p d strict q).runFrom t = (.ok b, t')) (serves : p.Serves u.provider x.participants sets)
    (lineage : IsLineage x.participants sets) :
    b.header.capabilitySets = (x.participants.flatMap sets).eraseDups.map SymbolRef.path ∧
      b.header.capabilitySets.Nodup ∧
      ∃ listed : List SymbolRef, b.header.extraBases = listed.map SymbolRef.path ∧
        listed ⊆ x.participants.flatMap sets ∧
        (∀ s ∈ x.participants.flatMap sets,
          s = x.base ∨ s ∈ sets x.base ∨ s ∈ listed ∨ ∃ e ∈ listed, s ∈ sets e) ∧
        ∀ s ∈ listed, s ≠ x.base ∧ s ∉ sets x.base ∧ ∀ e ∈ listed, s ∉ sets e := by
  obtain ⟨o, v, claims, ho, -, rfl⟩ := build_eq_ok built
  obtain ⟨u', w, hmix, hheader, -⟩ := stages_of_outline ho
  rw [resolved] at hmix
  cases hmix
  obtain ⟨hsets, -, hextra⟩ := planHeader_of_serves serves lineage hheader
  have hpaths : (union (o.mix.participants.flatMap sets)).map SymbolRef.path |>.Nodup := by
    refine (nodup_union _).map_on fun r hr s hs hpath => ?_
    exact lineage.distinct r (List.mem_append_right _ (mem_union.1 hr)) s (List.mem_append_right _ (mem_union.1 hs)) hpath
  refine ⟨by rw [← union_eq_eraseDups]; exact hsets, hsets ▸ hpaths, o.mix.listed sets, hextra, fun s hs => ?_,
    fun s => covered_by_listed lineage, fun s => not_brought_of_listed⟩
  exact (mem_ownSets.1 (mem_listed.1 hs).1).1

end Blueprint

/-- A cart that has a name, and a rebate that has a name and a price; what has a price is shown. -/
def Manifest.priced : List Manifest :=
  [{ ref := ⟨"shop", "Cart"⟩, capabilitySets := [⟨"shop", "Named"⟩] },
    { ref := ⟨"shop", "Rebate"⟩
      capabilitySets := [⟨"shop", "Priced"⟩, ⟨"shop", "Shown"⟩, ⟨"shop", "Named"⟩] },
    { ref := ⟨"shop", "Priced"⟩, capabilitySets := [⟨"shop", "Shown"⟩] },
    { ref := ⟨"shop", "Shown"⟩ },
    { ref := ⟨"shop", "Named"⟩ }]

def Request.priced : Request := { name := "Sale", base := .text "shop:Cart", mixins := [.text "shop:Rebate"] }

namespace Blueprint

theorem capabilitySets_listed_priced : ∃ x u b t',
    (resolveMix (Provider.ofManifests Manifest.priced) .priced).runFrom ⟨(), []⟩ = (.ok x, u) ∧
      (build (Provider.ofManifests Manifest.priced) ⟨.function 0, .function 1, .cls 2, .cls 3, .function 4⟩ true
        .priced).runFrom ⟨(), []⟩ = (.ok b, t') ∧
      (Provider.ofManifests Manifest.priced).Serves u.provider x.participants (Provider.setsIn Manifest.priced) ∧
      IsLineage x.participants (Provider.setsIn Manifest.priced) ∧
      b.header.capabilitySets = ["shop:Named", "shop:Priced", "shop:Shown"] ∧ b.header.extraBases = ["shop:Priced"] ∧
      ∃ listed : List SymbolRef, b.header.extraBases = listed.map SymbolRef.path ∧
        ∀ s ∈ x.participants.flatMap (Provider.setsIn Manifest.priced), s = x.base ∨
          s ∈ Provider.setsIn Manifest.priced x.base ∨ s ∈ listed ∨
            ∃ e ∈ listed, s ∈ Provider.setsIn Manifest.priced e := by
  generalize hmix : (resolveMix (Provider.ofManifests Manifest.priced) _).runFrom (⟨(), []⟩ : Planning Unit) = r
  generalize hrun : (build (Provider.ofManifests Manifest.priced) _ true _).runFrom (⟨(), []⟩ : Planning Unit) = r'
  have hx : r.1.toOption = some ⟨⟨"shop", "Cart"⟩, [⟨"shop", "Rebate"⟩]⟩ := by
    rw [← hmix]
    decide +kernel
  have hheader : (r'.1.toOption.map fun b => (b.header.capabilitySets, b.header.extraBases)) =
      some (["shop:Named", "shop:Priced", "shop:Shown"], ["shop:Priced"]) := by
    rw [← hrun]
    decide +kernel
  obtain ⟨outcome, u⟩ := r
  obtain ⟨outcome', t'⟩ := r'
  cases outcome with
  | error e => cases hx
  | ok x =>
    cases outcome' with
    | error e => cases hheader
    | ok b =>
      obtain rfl := Option.some.inj hx
      have hheader := Option.some.inj hheader
      rw [Prod.mk.injEq] at hheader
      have serves : (Provider.ofManifests Manifest.priced).Serves () [⟨"shop", "Cart"⟩, ⟨"shop", "Rebate"⟩]
          (Provider.setsIn Manifest.priced) := Provider.serves_ofManifests (by decide +kernel)
      have lineage : IsLineage [⟨"shop", "Cart"⟩, ⟨"shop", "Rebate"⟩] (Provider.setsIn Manifest.priced) :=
        ⟨by decide +kernel, by decide +kernel, by decide +kernel⟩
      obtain ⟨-, -, listed, hextra, -, hcovered, -⟩ := capabilitySets_listed hmix hrun serves lineage
      exact ⟨_, u, b, t', rfl, rfl, serves, lineage, hheader.1, hheader.2, listed, hextra, hcovered⟩

end Blueprint

end Amalgam
