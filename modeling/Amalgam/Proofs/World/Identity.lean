import Amalgam.Proofs.Agreement
import Amalgam.Proofs.Blueprint.Outline
import Amalgam.Proofs.Blueprint.Symbols
import Amalgam.World.Live

/-!
# A path stands for one class

The provider of live classes never lets go of what a path stands for: a class is claimed under a reference that no other
class has (`Roster.choose_free`), and imported under one that is new. So in the end the path of each contributor stands
for the very class that the caller gave (`Blueprint.class_of_resolveMix`).
-/

namespace Amalgam

/-- The class that can be imported by a reference. -/
def World.classAt? (w : World) (r : SymbolRef) : Option Nat :=
  match w.importSymbol r with
  | .ok (.cls id) => some id
  | _ => none

/-- The class that a caller gives: a live one as it is, any other by import. -/
def TypeLike.class? (w : World) : TypeLike → Option Nat
  | .text path => (SymbolRef.parse? path).bind w.classAt?
  | .ref r => w.classAt? r
  | .live id _ => some id
  | .other _ => none

/-- Numbered variants of a reference have paths of their own. -/
theorem SymbolRef.path_variant_injective {r : SymbolRef} {m n : Nat} (hm : 1 ≤ m) (hn : 1 ≤ n)
    (h : (Roster.nthRef r m).path = (Roster.nthRef r n).path) : m = n := by
  have longer : ∀ k : Nat, (r.variant k).path ≠ r.path := by
    intro k he
    have hq : r.qualname ++ "#" ++ toString k = r.qualname := String.append_right_inj _ |>.1 he
    have := congrArg String.length hq
    rw [String.length_append, String.length_append] at this
    have : ("#" : String).length = 1 := rfl
    omega
  unfold Roster.nthRef at h
  split at h <;> split at h
  · omega
  · exact absurd h.symm (longer n)
  · exact absurd h (longer m)
  · exact Alias.toString_injective (String.append_right_inj _ |>.1 (String.append_right_inj _ |>.1 h))

namespace Roster

variable {w : World} {c c' : Roster}

/-- All that a path stands for it keeps standing for. -/
def Extends (c c' : Roster) : Prop := ∀ path id, c.classes.get? path = some id → c'.classes.get? path = some id

theorem Extends.refl (c : Roster) : c.Extends c := fun _ _ h => h

theorem Extends.trans {c'' : Roster} (h : c.Extends c') (h' : c'.Extends c'') : c.Extends c'' :=
  fun path id hget => h' path id (h path id hget)

/-- An entry may be written where there is none, or the same. -/
theorem extends_put {path : String} {id : Nat} (free : ∀ other, c.classes.get? path = some other → other = id) :
    c.Extends { c with classes := c.classes.put path id } := by
  intro p other hget
  by_cases hp : p = path
  · subst hp
    rw [free other hget]
    exact Entries.get?_put_self _ _ _
  · exact (Entries.get?_put_of_ne _ _ hp).trans hget

/-- A class may have a reference that stands for nothing else. -/
theorem choose_eq (c : Roster) (id : Nat) (r : SymbolRef) : c.choose id r =
    nthRef r (firstFree (fun n => (c.classes.get? (nthRef r n).path).all (· == id)) c.classes.length 1) := by
  dsimp only [choose]
  rw [firstFree_congr (g := fun n => (c.classes.get? (nthRef r n).path).all (· == id)) fun n => ?_]
  cases c.classes.get? (nthRef r n).path <;> rfl

/-- The reference chosen for a class is that of no other class. -/
theorem choose_free (c : Roster) (id : Nat) (r : SymbolRef) {other : Nat}
    (h : c.classes.get? (c.choose id r).path = some other) : other = id := by
  have hfree := firstFree_of_injective (f := fun n => (c.classes.get? (nthRef r n).path).all (· == id))
    (@SymbolRef.path_variant_injective r) fun n (hn : _ ∉ c.classes.keys) => by
      rw [(Entries.get?_eq_none_iff _ _).2 hn]
      rfl
  rw [Entries.keys, List.length_map] at hfree
  rw [choose_eq] at h
  simpa [h] using hfree

theorem claim_eq_ok {id : Nat} {r : SymbolRef} (h : (claim w id).runFrom c = (.ok r, c')) :
    c.Extends c' ∧ c'.classes = c.classes.put r.path id := by
  cases h
  exact ⟨extends_put fun other hother => choose_free c id _ hother, rfl⟩

/-- A class is found under a path that stands for it already, or imported under a new one. -/
theorem find_eq_ok {r : SymbolRef} {id : Nat} (h : (find w r).runFrom c = (.ok id, c')) :
    c.classes.get? r.path = some id ∧ c' = c ∨
      r.path ∉ c.classes.keys ∧ w.classAt? r = some id ∧ c'.classes = c.classes.put r.path id := by
  obtain ⟨now, u, hget, h⟩ := Act.bind_eq_ok.1 h
  cases hget
  cases hfound : c.classes.get? r.path with
  | some other =>
    simp only [hfound] at h
    cases h
    exact Or.inl ⟨rfl, rfl⟩
  | none =>
    simp only [hfound] at h
    obtain ⟨v, u, himport, h⟩ := Act.bind_eq_ok.1 h
    rw [Act.runFrom_ofExcept, Prod.mk.injEq] at himport
    obtain ⟨himport, rfl⟩ := himport
    refine Or.inr ⟨(Entries.get?_eq_none_iff _ _).1 hfound, ?_⟩
    cases v with
    | cls other =>
      cases h
      exact ⟨by simp only [World.classAt?, himport], rfl⟩
    | _ => cases h

theorem get?_of_find {r : SymbolRef} {id : Nat} (h : (find w r).runFrom c = (.ok id, c')) :
    c'.classes.get? r.path = some id := by
  rcases find_eq_ok h with ⟨hget, rfl⟩ | ⟨-, -, hc'⟩
  · exact hget
  · rw [hc', Entries.get?_put_self]

/-- A question leaves every path with what it stands for. -/
theorem extends_of_find {r : SymbolRef} : c.Extends ((find w r).runFrom c).2 := by
  generalize hrun : (find w r).runFrom c = done
  obtain ⟨outcome, c'⟩ := done
  cases outcome with
  | ok id =>
    rcases find_eq_ok hrun with ⟨-, rfl⟩ | ⟨hnew, -, hc'⟩
    · exact Extends.refl _
    · intro path other hget
      show c'.classes.get? path = some other
      have hne : path ≠ r.path := fun he => hnew (he ▸ Entries.mem_keys_of_get? hget)
      rwa [hc', Entries.get?_put_of_ne _ _ hne]
  | error e =>
    unfold find at hrun
    rw [Act.runFrom_bind, Act.runFrom_get] at hrun
    dsimp only at hrun
    cases hfound : c.classes.get? r.path with
    | some other =>
      simp only [hfound] at hrun
      cases hrun
    | none =>
      simp only [hfound, Act.runFrom_bind, Act.runFrom_ofExcept] at hrun
      cases himport : w.importSymbol r with
      | error e =>
        rw [himport] at hrun
        cases hrun
        exact Extends.refl _
      | ok v =>
        rw [himport] at hrun
        cases v <;> cases hrun <;> exact Extends.refl _

open Act (Keeps keeps_pure)

theorem find_extends (c : Roster) (r : SymbolRef) : Keeps c.Extends (find w r) := fun _ h => h.trans extends_of_find

theorem claim_extends (c : Roster) (id : Nat) : Keeps c.Extends (claim w id) :=
  fun _ h => h.trans (claim_eq_ok (w := w) rfl).1

theorem resolve_extends (c : Roster) (t : TypeLike) : Keeps c.Extends (resolve w t) := by
  cases t with
  | text path =>
    refine Keeps.bind (fun c' h => ?_) fun r => (find_extends c r).bind fun _ => keeps_pure r
    unfold Provider.parse
    cases SymbolRef.parse? path <;> exact h
  | ref r => exact (find_extends c r).bind fun _ => keeps_pure r
  | live id r => exact claim_extends c id
  | other shown => exact fun _ h => h

theorem manifest_extends (c : Roster) (r : SymbolRef) : Keeps c.Extends (manifest w r) := by
  refine Keeps.bind (fun _ h => h) fun now => ?_
  cases now.manifests.get? r.path with
  | some m => exact keeps_pure m
  | none =>
    refine (find_extends c r).bind fun id => (Keeps.mapM fun a _ => claim_extends c a).bind fun sets => ?_
    exact Keeps.bind (fun _ h => h) fun _ => keeps_pure _

end Roster

/-- The provider of live classes lets no path go over to another class. -/
theorem Provider.keeps_extends (w : World) (c : Roster) : (Provider.live w).Keeps c.Extends fun _ _ => True :=
  ⟨fun t s h => Roster.resolve_extends c t s h, fun r s h => Roster.manifest_extends c r s h, fun _ _ => trivial⟩

namespace Roster

variable {w : World} {c c' : Roster}

theorem manifests_find {r : SymbolRef} {id : Nat} (h : (find w r).runFrom c = (.ok id, c')) :
    c'.manifests = c.manifests := by
  obtain ⟨now, u, hget, h⟩ := Act.bind_eq_ok.1 h
  cases hget
  cases hfound : c.classes.get? r.path with
  | some other =>
    simp only [hfound] at h
    cases h
    rfl
  | none =>
    simp only [hfound] at h
    obtain ⟨v, u, himport, h⟩ := Act.bind_eq_ok.1 h
    rw [Act.runFrom_ofExcept, Prod.mk.injEq] at himport
    obtain ⟨-, rfl⟩ := himport
    cases v <;> cases h
    rfl

theorem manifests_resolve {t : TypeLike} {r : SymbolRef} (h : (resolve w t).runFrom c = (.ok r, c')) :
    c'.manifests = c.manifests := by
  cases t with
  | text path =>
    obtain ⟨parsed, u, hparse, h⟩ := Act.bind_eq_ok.1 h
    obtain ⟨id, v, hid, h⟩ := Act.bind_eq_ok.1 h
    cases h
    have hu : u = c := by
      unfold Provider.parse at hparse
      cases hp : SymbolRef.parse? path <;> rw [hp] at hparse <;> cases hparse
      rfl
    rw [manifests_find hid, hu]
  | ref r =>
    obtain ⟨id, v, hid, h⟩ := Act.bind_eq_ok.1 h
    cases h
    exact manifests_find hid
  | live id r =>
    cases h
    rfl
  | other shown => cases h

/-- A path that is new when a contributor is resolved stands for the class given from then on, and no other path is new. -/
theorem resolve_eq_ok {t : TypeLike} {r : SymbolRef} (h : (resolve w t).runFrom c = (.ok r, c')) :
    c.Extends c' ∧ (∀ path ∈ c'.classes.keys, path = r.path ∨ path ∈ c.classes.keys) ∧
      (r.path ∉ c.classes.keys → ∃ id, t.class? w = some id ∧ c'.classes.get? r.path = some id) := by
  have hfind : ∀ {r : SymbolRef} {id : Nat} {c' : Roster}, (find w r).runFrom c = (.ok id, c') →
      c.Extends c' ∧ (∀ path ∈ c'.classes.keys, path = r.path ∨ path ∈ c.classes.keys) ∧
        (r.path ∉ c.classes.keys → ∃ id, w.classAt? r = some id ∧ c'.classes.get? r.path = some id) := by
    intro r id c' h
    have hext : c.Extends c' := by
      have := extends_of_find (w := w) (c := c) (r := r)
      rwa [h] at this
    rcases find_eq_ok h with ⟨hget, rfl⟩ | ⟨hnew, hclass, hc'⟩
    · exact ⟨hext, fun _ hp => Or.inr hp, fun hnew => absurd (Entries.mem_keys_of_get? hget) hnew⟩
    · rw [hc']
      exact ⟨hext, fun path hp => (Entries.mem_keys_put _ _ _ _).1 hp, fun _ => ⟨id, hclass, Entries.get?_put_self _ _ _⟩⟩
  cases t with
  | text path =>
    obtain ⟨parsed, u, hparse, h⟩ := Act.bind_eq_ok.1 h
    obtain ⟨id, v, hid, h⟩ := Act.bind_eq_ok.1 h
    cases h
    unfold Provider.parse at hparse
    cases hp : SymbolRef.parse? path with
    | none =>
      rw [hp] at hparse
      cases hparse
    | some found =>
      rw [hp] at hparse
      cases hparse
      obtain ⟨hext, hkeys, hnew⟩ := hfind hid
      refine ⟨hext, hkeys, fun hr => ?_⟩
      obtain ⟨id, hclass, hget⟩ := hnew hr
      exact ⟨id, by rw [TypeLike.class?, hp]; exact hclass, hget⟩
  | ref r' =>
    obtain ⟨id, v, hid, h⟩ := Act.bind_eq_ok.1 h
    cases h
    exact hfind hid
  | live id r' =>
    obtain ⟨hext, hc'⟩ := claim_eq_ok h
    rw [hc']
    refine ⟨hext, fun path hp => (Entries.mem_keys_put _ _ _ _).1 hp, fun _ => ⟨id, rfl, Entries.get?_put_self _ _ _⟩⟩
  | other shown => cases h

/-- A type and a reference stand for the same class. -/
def Pairs (w : World) (c : Roster) (t : TypeLike) (r : SymbolRef) : Prop :=
  ∃ id, t.class? w = some id ∧ c.classes.get? r.path = some id

theorem Pairs.mono {t : TypeLike} {r : SymbolRef} (h : Pairs w c t r) (hext : c.Extends c') : Pairs w c' t r := by
  obtain ⟨id, hclass, hget⟩ := h
  exact ⟨id, hclass, hext _ _ hget⟩

/-- Contributors resolved one after another under paths of their own stand for the classes given. -/
theorem resolveAll_eq_ok {types : List TypeLike} {refs : List SymbolRef} {t t' : Planning Roster}
    (h : (types.mapM fun type => Planner.ask ((Provider.live w).resolve type)).runFrom t = (.ok refs, t'))
    (distinct : (refs.map SymbolRef.path).Nodup) (new : ∀ r ∈ refs, r.path ∉ t.provider.classes.keys) :
    t.provider.Extends t'.provider ∧ t'.provider.manifests = t.provider.manifests ∧
      List.Forall₂ (Pairs w t'.provider) types refs := by
  induction types generalizing refs t with
  | nil =>
    cases h
    exact ⟨Extends.refl _, rfl, .nil⟩
  | cons type types ih =>
    rw [List.mapM_cons] at h
    obtain ⟨r, u, hr, h⟩ := Act.bind_eq_ok.1 h
    obtain ⟨rest, v, hrest, h⟩ := Act.bind_eq_ok.1 h
    cases h
    obtain ⟨hext, hkeys, hclass⟩ := resolve_eq_ok (Planner.ask_eq_ok hr)
    rw [List.map_cons, List.nodup_cons] at distinct
    obtain ⟨hext', hmanifests, hpairs⟩ := ih hrest distinct.2 fun x hx hmem => by
      rcases hkeys _ hmem with he | hmem
      · exact distinct.1 (he ▸ List.mem_map_of_mem hx)
      · exact new x (List.mem_cons_of_mem _ hx) hmem
    have hpair : Pairs w u.provider type r := hclass (new r List.mem_cons_self)
    exact ⟨hext.trans hext', hmanifests.trans (manifests_resolve (Planner.ask_eq_ok hr)), .cons (hpair.mono hext') hpairs⟩

/-! ## Capability sets -/

/-- The sets of every manifest that is kept are claimed. -/
def Listed (c : Roster) : Prop := ∀ e ∈ c.manifests, ∀ r ∈ e.2.capabilitySets, r.path ∈ c.classes.keys

theorem Extends.mem_keys {path : String} (h : c.Extends c') (hpath : path ∈ c.classes.keys) : path ∈ c'.classes.keys := by
  cases hget : c.classes.get? path with
  | none => exact absurd hpath ((Entries.get?_eq_none_iff _ _).1 hget)
  | some id => exact Entries.mem_keys_of_get? (h path id hget)

theorem claimAll_eq_ok {ids : List Nat} {refs : List SymbolRef} (h : (ids.mapM (claim w)).runFrom c = (.ok refs, c')) :
    c.Extends c' ∧ c'.manifests = c.manifests ∧ ∀ r ∈ refs, r.path ∈ c'.classes.keys := by
  induction ids generalizing refs c with
  | nil =>
    cases h
    exact ⟨Extends.refl _, rfl, fun r hr => absurd hr List.not_mem_nil⟩
  | cons id ids ih =>
    rw [List.mapM_cons] at h
    obtain ⟨r, u, hr, h⟩ := Act.bind_eq_ok.1 h
    obtain ⟨rest, v, hrest, h⟩ := Act.bind_eq_ok.1 h
    cases h
    obtain ⟨hext, hclasses⟩ := claim_eq_ok hr
    obtain ⟨hext', hmanifests, hkeys⟩ := ih hrest
    have hu : u.manifests = c.manifests := by
      cases hr
      rfl
    refine ⟨hext.trans hext', hmanifests.trans hu, fun x hx => ?_⟩
    rcases List.mem_cons.1 hx with rfl | hx
    · exact hext'.mem_keys (by rw [hclasses, Entries.mem_keys_put]; exact Or.inl rfl)
    · exact hkeys x hx

/-- What no declaration changes is in a manifest as it was at the start. -/
theorem inspect_keeps {α : Type} (part : Manifest → α)
    (member : ∀ (m : Manifest) s, part { m with members := m.members ++ [s] } = part m)
    (field : ∀ (m : Manifest) f, part { m with fields := m.fields ++ [f] } = part m) (id : Nat) (r : SymbolRef)
    (sets : List SymbolRef) : part (w.inspect id r sets) = part { ref := r, capabilitySets := sets } := by
  have hdeclared : ∀ (m : Manifest) (name : String) (d : World.Declared),
      part (World.addDeclared m name d) = part m := by
    intro m name d
    unfold World.addDeclared
    split
    · rfl
    · cases d with
      | member s => exact member m s
      | field f => exact field m f
      | nothing => rfl
  have hclass : ∀ (owners : List String) (m : Manifest) (k : Class), part (w.addClass owners m k) = part m := by
    intro owners m k
    unfold World.addClass
    generalize (World.declarationOrder k).filter _ = names
    induction names generalizing m with
    | nil => rfl
    | cons name names ih => exact (ih _).trans (hdeclared _ _ _)
  have hline : ∀ (owners : List String) (line : List Nat) (m : Manifest),
      part (line.foldl (fun m a => w.addClass owners m (w.cls a)) m) = part m := by
    intro owners line
    induction line with
    | nil => exact fun m => rfl
    | cons a line ih => exact fun m => (ih _).trans (hclass _ _ _)
  exact hline _ _ _

@[simp] theorem capabilitySets_inspect (id : Nat) (r : SymbolRef) (sets : List SymbolRef) :
    (w.inspect id r sets).capabilitySets = sets :=
  inspect_keeps Manifest.capabilitySets (fun _ _ => rfl) (fun _ _ => rfl) id r sets

@[simp] theorem ref_inspect (id : Nat) (r : SymbolRef) (sets : List SymbolRef) : (w.inspect id r sets).ref = r :=
  inspect_keeps Manifest.ref (fun _ _ => rfl) (fun _ _ => rfl) id r sets

/-- A manifest that is served was read before, or is read off the class of its path now. -/
theorem manifest_cases {r : SymbolRef} {m : Manifest} (h : (manifest w r).runFrom c = (.ok m, c')) :
    c.manifests.get? r.path = some m ∧ c' = c ∨
      c.manifests.get? r.path = none ∧ (∃ id sets, c'.classes.get? r.path = some id ∧ m = w.inspect id r sets) ∧
        c.Extends c' ∧ c'.manifests = c.manifests.put r.path m ∧ ∀ s ∈ m.capabilitySets, s.path ∈ c'.classes.keys := by
  have hext : c.Extends c' := by
    have := manifest_extends (w := w) c r c (Extends.refl c)
    rwa [h] at this
  obtain ⟨now, u, hget, h⟩ := Act.bind_eq_ok.1 h
  cases hget
  cases hfound : c.manifests.get? r.path with
  | some m' =>
    simp only [hfound] at h
    cases h
    exact Or.inl ⟨rfl, rfl⟩
  | none =>
    simp only [hfound] at h
    obtain ⟨id, v, hid, h⟩ := Act.bind_eq_ok.1 h
    obtain ⟨sets, x, hsets, h⟩ := Act.bind_eq_ok.1 h
    obtain ⟨_, y, hy, h⟩ := Act.bind_eq_ok.1 h
    cases hy
    cases h
    obtain ⟨hclaims, hmanifests, hkeys⟩ := claimAll_eq_ok hsets
    refine Or.inr ⟨rfl, ⟨id, sets, hclaims _ _ (get?_of_find hid), rfl⟩, hext, ?_, fun s hs =>
      hkeys s (by rwa [capabilitySets_inspect] at hs)⟩
    show x.manifests.put _ _ = _
    rw [hmanifests, manifests_find hid]

/-- The sets that a manifest names are claimed, and stay so. -/
theorem claimed_of_manifest {r : SymbolRef} {m : Manifest} (hlisted : c.Listed)
    (h : (manifest w r).runFrom c = (.ok m, c')) :
    c.Extends c' ∧ c'.Listed ∧ ∀ s ∈ m.capabilitySets, s.path ∈ c'.classes.keys := by
  rcases manifest_cases h with ⟨hfound, rfl⟩ | ⟨-, -, hext, hmanifests, hkeys⟩
  · exact ⟨Extends.refl _, hlisted, hlisted _ (Entries.mem_of_get? hfound)⟩
  · refine ⟨hext, fun e he s hs => ?_, hkeys⟩
    rw [hmanifests] at he
    rcases Entries.mem_put he with he | rfl
    · exact hext.mem_keys (hlisted e he s hs)
    · exact hkeys s hs

theorem claimed_of_served {rs : List SymbolRef} {served : List (List SymbolRef)} {t t' : Planning Roster}
    (hlisted : t.provider.Listed)
    (h : (rs.mapM fun r => Planner.ask ((Provider.live w).capabilitySets r)).runFrom t = (.ok served, t')) :
    ∀ sets ∈ served, ∀ s ∈ sets, s.path ∈ t'.provider.classes.keys := by
  suffices t.provider.Extends t'.provider ∧ ∀ sets ∈ served, ∀ s ∈ sets, s.path ∈ t'.provider.classes.keys from this.2
  induction rs generalizing served t with
  | nil =>
    cases h
    exact ⟨Extends.refl _, fun sets hsets => absurd hsets List.not_mem_nil⟩
  | cons r rs ih =>
    rw [List.mapM_cons] at h
    obtain ⟨sets, u, hsets, h⟩ := Act.bind_eq_ok.1 h
    obtain ⟨rest, v, hrest, h⟩ := Act.bind_eq_ok.1 h
    cases h
    obtain ⟨m, x, hm, hsets⟩ := Act.bind_eq_ok.1 (Planner.ask_eq_ok hsets)
    cases hsets
    obtain ⟨hext, hlisted, hkeys⟩ := claimed_of_manifest hlisted hm
    obtain ⟨hext', hall⟩ := ih hlisted hrest
    refine ⟨hext.trans hext', fun sets hsets s hs => ?_⟩
    rcases List.mem_cons.1 hsets with rfl | hsets
    · exact hext'.mem_keys (hkeys s hs)
    · exact hall sets hsets s hs

end Roster

namespace Blueprint

/-- In a fresh provider, the contributors of a mix stand for the classes given, each for its own. -/
theorem pairs_of_resolveMix {w : World} {q : Request} {x : Mix} {t t' : Planning Roster}
    (fresh : t.provider.classes = []) (h : (resolveMix (Provider.live w) q).runFrom t = (.ok x, t')) :
    t'.provider.manifests = t.provider.manifests ∧
      List.Forall₂ (Roster.Pairs w t'.provider) (q.base :: q.mixins) x.participants := by
  have hnodup := (resolveMix_eq_ok (Provider.keeps_trivial _) trivial h).1
  have hall := participants_of_resolveMix h
  refine (Roster.resolveAll_eq_ok hall hnodup fun r _ => ?_).2
  rw [fresh]
  exact List.not_mem_nil

/-- The sets listed next to the base are claimed. -/
theorem claimed_of_planHeader {w : World} {name : String} {x : Mix} {r : Header × List SymbolRef} {t t' : Planning Roster}
    (hlisted : t.provider.Listed) (h : (planHeader (Provider.live w) name x).runFrom t = (.ok r, t')) :
    ∀ s ∈ r.2, s.path ∈ t'.provider.classes.keys := by
  obtain ⟨served, u, hserved, h⟩ := Act.bind_eq_ok.1 h
  obtain ⟨extra, v, hextra, h⟩ := Act.bind_eq_ok.1 h
  cases h
  obtain ⟨hsub, hext⟩ := minimal_eq_ok (Provider.keeps_extends w u.provider) (Roster.Extends.refl _) hextra
  intro s hs
  have hunion := (List.mem_filter.1 (hsub hs)).1
  obtain ⟨sets, hsets, hs⟩ := List.mem_flatten.1 (mem_union.1 hunion)
  exact hext.mem_keys (Roster.claimed_of_served hlisted hserved sets hsets s hs)

end Blueprint

end Amalgam
