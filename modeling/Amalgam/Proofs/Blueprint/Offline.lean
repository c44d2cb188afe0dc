import Amalgam.Proofs.Blueprint.Following
import Amalgam.Session

/-!
# Plans from manifests

A provider of live classes can be replaced by the manifests it serves. `Request.resolved` gives a request the references
of its classes, and `Request.manifests` reads what a plan of it may need: the contributors, the classes of the orders, and
the capability sets of the contributors. A plan of the resolved request from these manifests follows the plan from the
live classes (`Blueprint.follows_outline`), so both give the same blueprint but for live objects, or fail alike
(`Blueprint.build_ofManifests`).
-/

namespace Amalgam

/-! ## Requests by reference -/

/-- The reference a caller gives, where it is one. -/
def TypeLike.ref? : TypeLike → Option SymbolRef
  | .ref r => some r
  | _ => none

/-- An entry whose order is given by the references of its classes. -/
def CombinatorEntry.resolved (w : World) : CombinatorEntry → Act Roster CombinatorEntry
  | .ordered f order => do return .ordered f ((← order.mapM (Roster.resolve w)).map .ref)
  | entry => pure entry

def CombinatorEntry.resolvedAll (w : World) : Entries CombinatorEntry → Act Roster (Entries CombinatorEntry)
  | [] => pure []
  | (member, entry) :: rest => do
    let entry ← entry.resolved w
    return (member, entry) :: (← resolvedAll w rest)

/-- The references of an order that a provider is asked for. -/
def CombinatorEntry.asked : CombinatorEntry → List SymbolRef
  | .ordered _ order => order.filterMap TypeLike.ref?
  | _ => []

/-- The references of an order. -/
def CombinatorEntry.order : CombinatorEntry → List SymbolRef
  | .ready spec => spec.order.getD []
  | entry => entry.asked

theorem TypeLike.filterMap_ref? (rs : List SymbolRef) : (rs.map TypeLike.ref).filterMap TypeLike.ref? = rs := by
  rw [List.filterMap_map]
  exact List.filterMap_some

theorem CombinatorEntry.asked_subset_order (entry : CombinatorEntry) : entry.asked ⊆ entry.order := by
  cases entry with
  | ready spec => exact List.nil_subset _
  | _ => exact List.Subset.refl _

namespace Request

/-- The request with the references of all its classes in their place. -/
def resolved (w : World) (q : Request) : Act Roster Request := do
  let base ← Roster.resolve w q.base
  let mixins ← q.mixins.mapM (Roster.resolve w)
  let combinators ← CombinatorEntry.resolvedAll w q.combinators
  return { q with base := .ref base, mixins := mixins.map .ref, combinators }

def contributors (q : Request) : List SymbolRef := (q.base :: q.mixins).filterMap TypeLike.ref?

def orders (q : Request) : List SymbolRef := q.combinators.flatMap fun e => e.2.order

/-- The manifests of the contributors, of the classes of the orders and of the contributors' capability sets. -/
def manifests (w : World) (q : Request) : Act Roster (List Manifest) := do
  let own ← Roster.serve w q.contributors
  let orders ← Roster.serve w q.orders
  let sets ← Roster.serve w (Blueprint.union (own.flatMap Manifest.capabilitySets))
  return own ++ orders ++ sets

end Request

/-! ## Questions -/

/-- Whatever is read of a class in the end is among the manifests given. -/
def Covers (final : Roster) (ms : List Manifest) (r : SymbolRef) : Prop :=
  ∀ m, final.manifests.get? r.path = some m → (Provider.table ms).get? r.path = some m

/-- So is what is read of its capability sets. -/
structure CoversAll (final : Roster) (ms : List Manifest) (r : SymbolRef) : Prop where
  own : Covers final ms r
  sets : ∀ m, final.manifests.get? r.path = some m → ∀ s ∈ m.capabilitySets, Covers final ms s

/-- A class that is claimed, and of which something is known if the plan comes to its end. -/
structure Known (stop c : Roster) (K : SymbolRef → Prop) (r : SymbolRef) : Prop where
  claimed : r.path ∈ c.classes.keys
  known : c.Precedes stop → K r

theorem Known.later {stop c c' : Roster} {K : SymbolRef → Prop} {r : SymbolRef} (h : Known stop c K r)
    (hgrows : c.Grows c') : Known stop c' K r :=
  ⟨hgrows.classes.mem_keys h.claimed, fun hend => h.known (hgrows.precedes hend)⟩

variable {w : World} {stop final : Roster} {ms : List Manifest} (hfinal : stop.Sound → stop.Grows final)

section Questions

variable {c : Roster} (hc : c.Sound)

include hc

section

include hfinal

theorem follows_manifest {r : SymbolRef} (h : Known stop c (Covers final ms) r) :
    Follows .question stop (fun m d => d.manifests.get? r.path = some m) ((Provider.live w).manifest r)
      ((Provider.ofManifests ms).manifest r) c := by
  obtain ⟨m, d, hm⟩ := Roster.exists_manifest (w := w) h.claimed
  have hfuture := Roster.future_manifest (w := w) hc r
  have hkept := Roster.get?_of_manifest hm
  show Ends _ _ _ _ _ ((Roster.manifest w r).runFrom c).1 ((Roster.manifest w r).runFrom c).2
  rw [hm] at hfuture ⊢
  refine ⟨hfuture.1, hfuture.2, fun m' hm' => ?_, fun u _ hend => ⟨(), ?_, trivial⟩⟩
  · cases hm'
    exact hkept
  · obtain ⟨hgrows, hstop⟩ : d.Precedes stop := hend
    have hlast := (hfinal hstop).manifests _ _ (hgrows.manifests _ _ hkept)
    have htable := h.known (hfuture.1.precedes ⟨hgrows, hstop⟩) m hlast
    exact Provider.manifest_ofManifests htable u

theorem follows_capabilitySets {r : SymbolRef} (h : Known stop c (CoversAll final ms) r) :
    Follows .question stop (fun sets d => ∀ s ∈ sets, Known stop d (Covers final ms) s)
      ((Provider.live w).capabilitySets r) ((Provider.ofManifests ms).capabilitySets r) c := by
  refine (follows_manifest hfinal hc ⟨h.claimed, fun hend => (h.known hend).own⟩).bind fun m d hcd hd hm =>
    Follows.pure hd fun s hs => ⟨?_, fun hend => ?_⟩
  · exact hd.listed _ (Entries.mem_of_get? hm) s hs
  · exact (h.known (hcd.precedes hend)).sets m ((hfinal hend.sound).manifests _ _ (hend.grows.manifests _ _ hm)) s hs

theorem follows_eligibleMembers {r : SymbolRef} (h : Known stop c (Covers final ms) r) (role : Role) :
    Follows .question stop (fun _ _ => True) ((Provider.live w).eligibleMembers r role)
      ((Provider.ofManifests ms).eligibleMembers r role) c :=
  (follows_manifest hfinal hc h).bind fun _ _ _ hd _ => Follows.done hd _

end

/-- A class that resolves in the end resolves from the start on, and to the same reference. -/
theorem follows_resolve {t : TypeLike} {r₀ : SymbolRef} {s₀ s₁ : Roster}
    (h : (Roster.resolve w t).runFrom s₀ = (.ok r₀, s₁)) (hs₀ : c.Precedes stop → s₀ = stop)
    (htable : c.Precedes stop → (Provider.table ms).has r₀.path = true) :
    Follows .question stop (fun r d => r.path ∈ d.classes.keys ∧ (d.Precedes stop → r = r₀ ∧ s₁ = stop))
      ((Provider.live w).resolve t) ((Provider.ofManifests ms).resolve (.ref r₀)) c := by
  have hfuture := Roster.future_resolve (w := w) hc t
  show Ends _ _ _ _ _ ((Roster.resolve w t).runFrom c).1 ((Roster.resolve w t).runFrom c).2
  generalize hrun : (Roster.resolve w t).runFrom c = done at hfuture ⊢
  obtain ⟨outcome, d⟩ := done
  obtain ⟨hgrows, hsound⟩ := hfuture
  cases outcome with
  | error e =>
    obtain rfl := Roster.resolve_eq_error hrun
    refine ⟨hgrows, hsound, fun a ha => (by cases ha), fun u _ hend => ?_⟩
    obtain rfl : d = stop := hend
    rw [hs₀ ⟨hgrows, hsound⟩, hrun] at h
    cases h
  | ok r =>
    have hsettled : d.Precedes stop → r = r₀ ∧ s₁ = stop := by
      intro hend
      rw [hs₀ (hgrows.precedes hend), Roster.resolve_settles hrun hend.grows.classes] at h
      cases h
      exact ⟨rfl, rfl⟩
    refine ⟨hgrows, hsound, fun a ha => ?_, fun u _ hend => ⟨(), ?_, trivial⟩⟩
    · cases ha
      exact ⟨Roster.mem_keys_of_resolve hrun, hsettled⟩
    · rw [(hsettled hend).1]
      show Act.runFrom (if (Provider.table ms).has r₀.path then pure r₀ else Act.refuse (.noManifest r₀.path)) u = _
      rw [if_pos (htable (hgrows.precedes hend))]
      rfl

omit hc in
theorem follows_resolveAll {ts : List TypeLike} {rs : List SymbolRef} {c s₀ s₁ : Roster} (hc : c.Sound)
    (h : (ts.mapM (Roster.resolve w)).runFrom s₀ = (.ok rs, s₁)) (hs₀ : c.Precedes stop → s₀ = stop)
    (htable : c.Precedes stop → ∀ r ∈ rs, (Provider.table ms).has r.path = true) :
    Follows .question stop (fun found d => (∀ r ∈ found, r.path ∈ d.classes.keys) ∧
        (d.Precedes stop → found = rs ∧ s₁ = stop))
      (ts.mapM (Provider.live w).resolve) ((rs.map TypeLike.ref).mapM (Provider.ofManifests ms).resolve) c := by
  induction ts generalizing rs c s₀ with
  | nil =>
    cases h
    exact Follows.pure hc ⟨fun r hr => absurd hr List.not_mem_nil, fun hend => ⟨rfl, hs₀ hend⟩⟩
  | cons t ts ih =>
    rw [List.mapM_cons] at h ⊢
    obtain ⟨r₀, u, hr, h⟩ := Act.bind_eq_ok.1 h
    obtain ⟨rest, v, hrest, h⟩ := Act.bind_eq_ok.1 h
    cases h
    rw [List.map_cons, List.mapM_cons]
    refine (follows_resolve hc hr hs₀ fun hend => htable hend _ List.mem_cons_self).bind fun r d hcd hd hfound => ?_
    have hnext := ih hd hrest (fun hend => (hfound.2 hend).2) fun hend x hx =>
      htable (hcd.precedes hend) x (List.mem_cons_of_mem _ hx)
    refine hnext.bind fun found d' hdd' hd' hfounds => Follows.pure hd' ⟨fun x hx => ?_, fun hend => ?_⟩
    · rcases List.mem_cons.1 hx with rfl | hx
      · exact hdd'.classes.mem_keys hfound.1
      · exact hfounds.1 x hx
    · rw [(hfound.2 (hdd'.precedes hend)).1, (hfounds.2 hend).1]
      exact ⟨rfl, (hfounds.2 hend).2⟩

end Questions

/-! ## Contributors and header -/

namespace Blueprint

open Planner

variable {s : Planning Roster} (hs : s.provider.Sound)

/-- A mix found on the way is the one found in the end. -/
theorem follows_resolveMix {q : Request} {base : SymbolRef} {mixins : List SymbolRef} {s₀ s₁ : Roster}
    (hs : s.provider.Sound) (hbase : (Roster.resolve w q.base).runFrom stop = (.ok base, s₀))
    (hmixins : (q.mixins.mapM (Roster.resolve w)).runFrom s₀ = (.ok mixins, s₁))
    (htable : stop.Sound → ∀ r ∈ base :: mixins, (Provider.table ms).has r.path = true) {q' : Request}
    (hq : q'.base = .ref base) (hq' : q'.mixins = mixins.map .ref) :
    Follows .plan stop (fun x d => (∀ r ∈ x.participants, r.path ∈ d.classes.keys) ∧
        (d.Precedes stop → x.participants = base :: mixins ∧ s₁ = stop))
      (resolveMix (Provider.live w) q) (resolveMix (Provider.ofManifests ms) q') s := by
  unfold resolveMix
  rw [hq, hq', mapM_ask, mapM_ask]
  refine (follows_ask (follows_resolve hs hbase (fun _ => rfl)
    fun hend => htable hend.sound _ List.mem_cons_self)).bind fun r t hst ht hr => ?_
  refine (follows_ask (follows_resolveAll ht hmixins (fun hend => (hr.2 hend).2)
    fun hend x hx => htable hend.sound x (List.mem_cons_of_mem _ hx))).bind fun rs t' htt' ht' hrs => ?_
  cases repeated? [] (r :: rs) with
  | some path => exact Follows.throw ht' _
  | none =>
    refine Follows.pure ht' ⟨fun x hx => ?_, fun hend => ?_⟩
    · rcases List.mem_cons.1 hx with rfl | hx
      · exact htt'.classes.mem_keys hr.1
      · exact hrs.1 x hx
    · show r :: rs = _ ∧ _
      rw [(hr.2 (htt'.precedes hend)).1, (hrs.2 hend).1]
      exact ⟨rfl, (hrs.2 hend).2⟩

include hfinal

theorem follows_setsAbove (hs : s.provider.Sound) {set : SymbolRef} (h : Known stop s.provider (Covers final ms) set) :
    Follows .plan stop (fun _ _ => True) (setsAbove (Provider.live w) set) (setsAbove (Provider.ofManifests ms) set) s := by
  have hask : Follows .plan stop (fun _ _ => True) (ask ((Provider.live w).capabilitySets set))
      (ask ((Provider.ofManifests ms).capabilitySets set)) s :=
    follows_ask ((follows_manifest hfinal hs h).bind fun _ _ _ hd _ => Follows.done hd _)
  obtain ⟨m, d, hm⟩ := Roster.exists_manifest (w := w) h.claimed
  have hsets : ((Provider.live w).capabilitySets set).runFrom s.provider = (.ok m.capabilitySets, d) :=
    Act.bind_eq_ok.2 ⟨m, d, hm, rfl⟩
  have hrun : (ask ((Provider.live w).capabilitySets set)).runFrom s =
      (.ok m.capabilitySets, { s with provider := d }) := by
    rw [runFrom_ask, hsets]
  unfold Follows at hask ⊢
  rw [hrun] at hask
  rw [setsAbove_of_ok hrun]
  refine ⟨hask.grows, hask.sound, fun _ _ => trivial, fun u hu hend => ?_⟩
  obtain ⟨v, hv, hsame⟩ := hask.same u hu hend
  exact ⟨v, setsAbove_of_ok hv, hsame⟩

theorem follows_minimal (hs : s.provider.Sound) {sets : List SymbolRef}
    (h : ∀ r ∈ sets, Known stop s.provider (Covers final ms) r) :
    Follows .plan stop (fun _ _ => True) (minimal (Provider.live w) sets) (minimal (Provider.ofManifests ms) sets) s := by
  suffices Follows .plan stop (fun _ _ => True) (implied (Provider.live w) sets) (implied (Provider.ofManifests ms) sets)
      s from this.bind fun _ _ _ ht _ => Follows.done ht _
  induction sets generalizing s with
  | nil => exact Follows.done hs _
  | cons set rest ih =>
    refine (follows_setsAbove hfinal hs (h set List.mem_cons_self)).bind fun above t hst ht _ => ?_
    have hrest := ih ht fun r hr => (h r (List.mem_cons_of_mem _ hr)).later hst
    exact hrest.bind fun _ _ _ ht _ => Follows.done ht _

theorem follows_planHeader (hs : s.provider.Sound) (name : String) {x : Mix}
    (h : ∀ r ∈ x.participants, Known stop s.provider (CoversAll final ms) r) :
    Follows .plan stop (fun _ _ => True) (planHeader (Provider.live w) name x)
      (planHeader (Provider.ofManifests ms) name x) s := by
  unfold planHeader
  have hserved : Follows .plan stop (fun served d => ∀ sets ∈ served, ∀ r ∈ sets, Known stop d (Covers final ms) r)
      (x.participants.mapM fun r => ask ((Provider.live w).capabilitySets r))
      (x.participants.mapM fun r => ask ((Provider.ofManifests ms).capabilitySets r)) s :=
    Follows.mapM hs (fun _ _ _ hgrows hall r hr => (hall r hr).later hgrows)
      fun r hr t hst ht => follows_ask (follows_capabilitySets hfinal ht ((h r hr).later hst))
  refine hserved.bind fun served t hst ht hsets => ?_
  refine (follows_minimal hfinal ht fun r hr => ?_).bind fun _ _ _ ht _ => Follows.done ht _
  obtain ⟨sets, hmem, hr⟩ := List.mem_flatten.1 (mem_union.1 (List.mem_filter.1 hr).1)
  exact hsets sets hmem r hr

/-! ## Fields and members -/

theorem follows_addContributors {c : Roster} (hc : c.Sound) (done : List FieldDef) {rs : List SymbolRef}
    (h : ∀ r ∈ rs, Known stop c (Covers final ms) r) :
    Follows .question stop (fun _ _ => True) (Fields.addContributors (Provider.live w) done rs)
      (Fields.addContributors (Provider.ofManifests ms) done rs) c := by
  induction rs generalizing done c with
  | nil => exact Follows.done hc _
  | cons r rest ih =>
    refine (follows_manifest hfinal hc (h r List.mem_cons_self)).bind fun m d hcd hd _ => ?_
    refine (Follows.ofExcept hd _).bind fun done d' hdd' hd' _ => ?_
    exact ih hd' done fun x hx => (h x (List.mem_cons_of_mem _ hx)).later (hcd.trans hdd')

theorem follows_memberMap (hs : s.provider.Sound) (role : Role) (members : MemberMap) {rs : List SymbolRef}
    (h : ∀ r ∈ rs, Known stop s.provider (Covers final ms) r) :
    Follows .plan stop (fun _ _ => True) (memberMap (Provider.live w) role members rs)
      (memberMap (Provider.ofManifests ms) role members rs) s := by
  induction rs generalizing role members s with
  | nil => exact Follows.done hs _
  | cons r rest ih =>
    refine (follows_ask (follows_eligibleMembers hfinal hs (h r List.mem_cons_self) role)).bind
      fun found t hst ht _ => ?_
    exact ih ht .mixin _ fun x hx => (h x (List.mem_cons_of_mem _ hx)).later hst

end Blueprint

/-! ## Combinators -/

namespace CombinatorSpec

variable {c : Roster}

theorem follows_of (hc : c.Sound) (f : Callee) (order : Option (List SymbolRef)) :
    Follows .question stop (fun _ _ => True) (CombinatorSpec.of f order) (CombinatorSpec.of f order) c := by
  cases f with
  | text path =>
    have hparse : Follows .question stop (fun _ _ => True) (Provider.parse path) (Provider.parse path) c := by
      unfold Provider.parse
      cases SymbolRef.parse? path with
      | none => exact Follows.throw hc _
      | some r => exact Follows.done hc _
    exact hparse.bind fun _ _ _ hd _ => Follows.done hd _
  | live handle r => exact Follows.done hc _
  | nameless shown => exact Follows.throw hc _
  | other shown => exact Follows.throw hc _

theorem follows_checkOrder (hc : c.Sound) (member : String) (participants : List SymbolRef) (spec : CombinatorSpec) :
    Follows .question stop (fun _ _ => True) (checkOrder member participants spec)
      (checkOrder member participants spec) c := by
  unfold checkOrder
  split
  · exact Follows.throw hc _
  · exact Follows.done hc _

/-- An entry whose order resolves in the end is read alike with the references of its classes. -/
theorem follows_parse (hc : c.Sound) (participants : List SymbolRef) (member : String) {entry entry' : CombinatorEntry}
    {s₀ s₁ : Roster} (h : (entry.resolved w).runFrom s₀ = (.ok entry', s₁)) (hs₀ : c.Precedes stop → s₀ = stop)
    (htable : stop.Sound → ∀ r ∈ entry'.asked, (Provider.table ms).has r.path = true) :
    Follows .question stop (fun _ d => d.Precedes stop → s₁ = stop) (parse (Provider.live w) participants member entry)
      (parse (Provider.ofManifests ms) participants member entry') c := by
  have hrest : ∀ (spec : CombinatorSpec) (d : Roster), d.Sound → (d.Precedes stop → s₁ = stop) →
      Follows .question stop (fun _ d => d.Precedes stop → s₁ = stop)
        (checkOrder member participants spec >>= fun _ => (pure spec : Act Roster CombinatorSpec))
        (checkOrder member participants spec >>= fun _ => (pure spec : Act Unit CombinatorSpec)) d :=
    fun spec d hd hend => (follows_checkOrder hd member participants spec).bind fun _ d' hdd' hd' _ =>
      Follows.pure hd' fun hend' => hend (hdd'.precedes hend')
  cases entry with
  | ready spec =>
    cases h
    exact (Follows.done hc spec).bind fun spec d hcd hd _ => hrest spec d hd fun hend => hs₀ (hcd.precedes hend)
  | single f =>
    cases h
    cases f with
    | other shown => exact Follows.throw hc _
    | _ => exact (follows_of hc _ none).bind fun spec d hcd hd _ => hrest spec d hd fun hend => hs₀ (hcd.precedes hend)
  | ordered f order =>
    obtain ⟨rs, u, hrs, h⟩ := Act.bind_eq_ok.1 h
    cases h
    have hall := follows_resolveAll hc hrs hs₀ fun hend r hr =>
      htable hend.sound r (by rwa [CombinatorEntry.asked, TypeLike.filterMap_ref?])
    refine hall.bind fun found d hcd hd hfound => ?_
    exact (follows_of hd f (some found)).bind fun spec d' hdd' hd' _ =>
      hrest spec d' hd' fun hend => (hfound.2 (hdd'.precedes hend)).2
  | badSequence shown =>
    cases h
    exact Follows.throw hc _

theorem follows_parseFrom (hc : c.Sound) (participants : List SymbolRef) (specs : Entries CombinatorSpec)
    (claimed : Entries Handle) {entries entries' : Entries CombinatorEntry} {s₀ s₁ : Roster}
    (h : (CombinatorEntry.resolvedAll w entries).runFrom s₀ = (.ok entries', s₁))
    (hs₀ : c.Precedes stop → s₀ = stop)
    (htable : stop.Sound → ∀ e ∈ entries', ∀ r ∈ e.2.asked, (Provider.table ms).has r.path = true) :
    Follows .question stop (fun _ _ => True) (parseFrom (Provider.live w) participants specs claimed entries)
      (parseFrom (Provider.ofManifests ms) participants specs claimed entries') c := by
  induction entries generalizing specs claimed entries' s₀ c with
  | nil =>
    cases h
    exact Follows.done hc _
  | cons e rest ih =>
    obtain ⟨member, entry⟩ := e
    obtain ⟨entry', u, hentry, h⟩ := Act.bind_eq_ok.1 h
    obtain ⟨rest', v, hrest, h⟩ := Act.bind_eq_ok.1 h
    cases h
    refine (follows_parse hc participants member hentry hs₀ fun hstop => htable hstop _ List.mem_cons_self).bind
      fun spec d hcd hd hsettled => ?_
    exact ih hd _ _ hrest hsettled fun hstop x hx => htable hstop x (List.mem_cons_of_mem _ hx)

end CombinatorSpec

/-! ## Whole plans -/

namespace Blueprint

section

variable {s : Planning Roster} {d : Defaults} {strict : Bool} {q : Request} {base : SymbolRef} {mixins : List SymbolRef}
  {entries : Entries CombinatorEntry} {s₀ s₁ s₂ : Roster}

theorem follows_planContext (hs : s.provider.Sound) (x : Mix) (members : MemberMap) (q' : Request)
    (hentries : (CombinatorEntry.resolvedAll w q.combinators).runFrom s₁ = (.ok q'.combinators, s₂))
    (hs₁ : s.provider.Precedes stop → s₁ = stop)
    (htable : stop.Sound → ∀ e ∈ q'.combinators, ∀ r ∈ e.2.asked, (Provider.table ms).has r.path = true)
    (hname : q'.name = q.name) (hbefore : q'.before = q.before) (hafter : q'.after = q.after) :
    Follows .plan stop (fun _ _ => True) (planContext (Provider.live w) d strict q x members)
      (planContext (Provider.ofManifests ms) d strict q' x members) s := by
  unfold planContext
  rw [hname, hbefore, hafter]
  refine (Planner.follows_ask (CombinatorSpec.follows_parseFrom hs x.participants [] [] hentries hs₁ htable)).bind
    fun specs t _ ht _ => ?_
  refine (follows_knownSpecs ht strict members.keys specs).bind fun specs t _ ht _ => ?_
  refine (Follows.ofExcept ht _).bind fun beforeNames t _ ht _ => ?_
  refine (Cutpoints.follows_usable ht strict .before members.keys beforeNames).bind fun before t _ ht _ => ?_
  refine (Follows.ofExcept ht _).bind fun afterNames t _ ht _ => ?_
  exact (Cutpoints.follows_usable ht strict .after members.keys afterNames).bind fun after t _ ht _ => Follows.done ht _

include hfinal

/-- The plan from manifests is that from live classes, up to the collection of symbols. -/
theorem follows_outline (hs : s.provider.Sound) (hbase : (Roster.resolve w q.base).runFrom stop = (.ok base, s₀))
    (hmixins : (q.mixins.mapM (Roster.resolve w)).runFrom s₀ = (.ok mixins, s₁))
    (hentries : (CombinatorEntry.resolvedAll w q.combinators).runFrom s₁ = (.ok entries, s₂))
    {q' : Request} (hq' : q' = { q with base := .ref base, mixins := mixins.map .ref, combinators := entries })
    (hcovers : stop.Sound → ∀ r ∈ base :: mixins, (Provider.table ms).has r.path = true ∧ CoversAll final ms r)
    (htable : stop.Sound → ∀ e ∈ entries, ∀ r ∈ e.2.asked, (Provider.table ms).has r.path = true) :
    Follows .plan stop (fun _ _ => True) (outline (Provider.live w) d strict q)
      (outline (Provider.ofManifests ms) d strict q') s := by
  subst hq'
  unfold outline
  split
  · exact Follows.throw hs _
  refine (follows_resolveMix hs hbase hmixins (fun hstop r hr => (hcovers hstop r hr).1) rfl rfl).bind
    fun x t _ ht hx => ?_
  have hknown : ∀ r ∈ x.participants, Known stop t.provider (CoversAll final ms) r := fun r hr =>
    ⟨hx.1 r hr, fun hend => (hcovers hend.sound r ((hx.2 hend).1 ▸ hr)).2⟩
  have hown : ∀ r ∈ x.participants, Known stop t.provider (Covers final ms) r := fun r hr =>
    ⟨hx.1 r hr, fun hend => ((hknown r hr).known hend).own⟩
  refine (follows_planHeader hfinal ht q.name hknown).bind fun header u htu hu _ => ?_
  obtain ⟨header, extra⟩ := header
  refine (Planner.follows_ask (follows_addContributors hfinal hu _ fun r hr => (hown r hr).later htu)).bind
    fun fields v huv hv _ => ?_
  have htv := htu.trans huv
  refine (follows_memberMap hfinal hv .base [] fun r hr => (hown r hr).later htv).bind fun members y hvy hy _ => ?_
  have hend : y.provider.Precedes stop → s₁ = stop := fun hend => (hx.2 ((htv.trans hvy).precedes hend)).2
  have hcontext : Follows .plan stop (fun _ _ => True) (planContext (Provider.live w) d strict q x members)
      (planContext (Provider.ofManifests ms) d strict
        { q with base := .ref base, mixins := mixins.map .ref, combinators := entries } x members) y :=
    follows_planContext hy x members _ hentries hend htable rfl rfl rfl
  refine hcontext.bind fun context z _ hz _ => ?_
  exact (follows_planMethods hz strict context members).bind fun methods z _ hz _ => Follows.done hz _

end

end Blueprint

/-! ## What is served -/

/-- Manifests that are kept under their paths are found there, whatever else is given. -/
theorem Provider.get?_table (hsound : final.Sound) (kept : ∀ m ∈ ms, final.manifests.get? m.ref.path = some m)
    {r : SymbolRef} {m : Manifest} (hm : m ∈ ms) (hget : final.manifests.get? r.path = some m) :
    (table ms).get? r.path = some m := by
  have hpath : m.ref.path = r.path := hsound.filed _ (Entries.mem_of_get? hget)
  have hlisted : r.path ∈ (ms.map fun m => (m.ref.path, m)).map Prod.fst :=
    List.mem_map.2 ⟨(r.path, m), List.mem_map.2 ⟨m, hm, by rw [hpath]⟩, rfl⟩
  obtain ⟨m', htable, hmem⟩ := Entries.exists_get?_ofList hlisted
  obtain ⟨m'', hm'', heq⟩ := List.mem_map.1 hmem
  rw [Prod.mk.injEq] at heq
  obtain ⟨hpath', rfl⟩ := heq
  have hkept := kept m'' hm''
  rw [hpath', hget] at hkept
  rwa [Option.some.inj hkept]

namespace Request

variable {q q' : Request} {c d : Roster}

/-- Manifests are served to the end. -/
theorem exists_manifests (w : World) (q : Request) (c : Roster) :
    ∃ ms d, (q.manifests w).runFrom c = (.ok ms, d) := by
  obtain ⟨own, c₁, hown⟩ := Roster.exists_serve w q.contributors c
  obtain ⟨orders, c₂, horders⟩ := Roster.exists_serve w q.orders c₁
  obtain ⟨sets, d, hsets⟩ := Roster.exists_serve w (Blueprint.union (own.flatMap Manifest.capabilitySets)) c₂
  exact ⟨_, d, Act.bind_eq_ok.2 ⟨own, c₁, hown, Act.bind_eq_ok.2 ⟨orders, c₂, horders,
    Act.bind_eq_ok.2 ⟨sets, d, hsets, rfl⟩⟩⟩⟩

/-- The manifests of a request cover all of its classes that are claimed. -/
theorem covers_of_manifests (hc : c.Sound) (h : (q.manifests w).runFrom c = (.ok ms, d)) : c.Grows d ∧
    (∀ r ∈ q.contributors, r.path ∈ c.classes.keys → (Provider.table ms).has r.path = true ∧ CoversAll d ms r) ∧
    ∀ r ∈ q.orders, r.path ∈ c.classes.keys → (Provider.table ms).has r.path = true := by
  obtain ⟨own, c₁, hown, h⟩ := Act.bind_eq_ok.1 h
  obtain ⟨orders, c₂, horders, h⟩ := Act.bind_eq_ok.1 h
  obtain ⟨sets, c₃, hsets, h⟩ := Act.bind_eq_ok.1 h
  cases h
  obtain ⟨hg₁, hs₁, hkept₁, hall₁⟩ := Roster.serve_eq_ok hc hown
  obtain ⟨hg₂, hs₂, hkept₂, hall₂⟩ := Roster.serve_eq_ok hs₁ horders
  obtain ⟨hg₃, hs₃, hkept₃, hall₃⟩ := Roster.serve_eq_ok hs₂ hsets
  refine ⟨(hg₁.trans hg₂).trans hg₃, ?_⟩
  have hkept : ∀ m ∈ own ++ orders ++ sets, d.manifests.get? m.ref.path = some m := by
    intro m hm
    rcases List.mem_append.1 hm with hm | hm
    · rcases List.mem_append.1 hm with hm | hm
      · exact hg₃.manifests _ _ (hg₂.manifests _ _ (hkept₁ m hm))
      · exact hg₃.manifests _ _ (hkept₂ m hm)
    · exact hkept₃ m hm
  have htable : ∀ {r : SymbolRef} {m : Manifest}, m ∈ own ++ orders ++ sets → d.manifests.get? r.path = some m →
      (Provider.table (own ++ orders ++ sets)).get? r.path = some m :=
    fun hm hget => Provider.get?_table hs₃ hkept hm hget
  have hcovers : ∀ {r : SymbolRef} {m : Manifest}, m ∈ own ++ orders ++ sets → d.manifests.get? r.path = some m →
      Covers d (own ++ orders ++ sets) r := by
    intro r m hm hget m' hget'
    rw [hget] at hget'
    cases hget'
    exact htable hm hget
  constructor
  · intro r hr hkey
    obtain ⟨m, hm, hget⟩ := hall₁ r hr hkey
    have hmem : m ∈ own ++ orders ++ sets := List.mem_append_left _ (List.mem_append_left _ hm)
    have hlast := hg₃.manifests _ _ (hg₂.manifests _ _ hget)
    refine ⟨by rw [Entries.has, htable hmem hlast]; rfl, hcovers hmem hlast, fun m' hm' s hs => ?_⟩
    -- The manifest read of a contributor lists sets that are claimed by then, so they are served as well.
    rw [hlast] at hm'
    cases hm'
    have hclaimed : s.path ∈ c₁.classes.keys := hs₁.listed _ (Entries.mem_of_get? hget) s hs
    have hunion : s ∈ Blueprint.union (own.flatMap Manifest.capabilitySets) :=
      Blueprint.mem_union.2 (List.mem_flatMap.2 ⟨m, hm, hs⟩)
    obtain ⟨m', hm', hget'⟩ := hall₃ s hunion (hg₂.classes.mem_keys hclaimed)
    exact hcovers (List.mem_append_right _ hm') hget'
  · intro r hr hkey
    obtain ⟨m, hm, hget⟩ := hall₂ r hr (hg₁.classes.mem_keys hkey)
    have hmem : m ∈ own ++ orders ++ sets := List.mem_append_left _ (List.mem_append_right _ hm)
    rw [Entries.has, htable hmem (hg₃.manifests _ _ hget)]
    rfl

end Request

namespace Roster

variable {c d : Roster}

/-- Classes that are resolved one after another are claimed in the end. -/
theorem claimed_of_resolveAll (hc : c.Sound) {ts : List TypeLike} {rs : List SymbolRef}
    (h : (ts.mapM (resolve w)).runFrom c = (.ok rs, d)) : c.Grows d ∧ d.Sound ∧ ∀ r ∈ rs, r.path ∈ d.classes.keys := by
  induction ts generalizing rs c with
  | nil =>
    cases h
    exact ⟨Grows.refl _, hc, fun r hr => absurd hr List.not_mem_nil⟩
  | cons t ts ih =>
    rw [List.mapM_cons] at h
    obtain ⟨r, u, hr, h⟩ := Act.bind_eq_ok.1 h
    obtain ⟨rest, v, hrest, h⟩ := Act.bind_eq_ok.1 h
    cases h
    have hfuture := future_resolve (w := w) hc t
    rw [hr] at hfuture
    obtain ⟨hgrows, hd, hkeys⟩ := ih hfuture.2 hrest
    refine ⟨hfuture.1.trans hgrows, hd, fun x hx => ?_⟩
    rcases List.mem_cons.1 hx with rfl | hx
    · exact hgrows.classes.mem_keys (mem_keys_of_resolve hr)
    · exact hkeys x hx

/-- So are the classes of orders. -/
theorem claimed_of_resolvedAll (hc : c.Sound) {entries entries' : Entries CombinatorEntry}
    (h : (CombinatorEntry.resolvedAll w entries).runFrom c = (.ok entries', d)) :
    c.Grows d ∧ d.Sound ∧ ∀ e ∈ entries', ∀ r ∈ e.2.asked, r.path ∈ d.classes.keys := by
  induction entries generalizing entries' c with
  | nil =>
    cases h
    exact ⟨Grows.refl _, hc, fun e he => absurd he List.not_mem_nil⟩
  | cons e rest ih =>
    obtain ⟨member, entry⟩ := e
    obtain ⟨entry', u, hentry, h⟩ := Act.bind_eq_ok.1 h
    obtain ⟨rest', v, hrest, h⟩ := Act.bind_eq_ok.1 h
    cases h
    have hhere : c.Grows u ∧ u.Sound ∧ ∀ r ∈ entry'.asked, r.path ∈ u.classes.keys := by
      cases entry with
      | ordered f types =>
        obtain ⟨rs, u', hrs, hentry⟩ := Act.bind_eq_ok.1 hentry
        cases hentry
        obtain ⟨hgrows, hu, hkeys⟩ := claimed_of_resolveAll hc hrs
        refine ⟨hgrows, hu, fun r hr => hkeys r ?_⟩
        rwa [CombinatorEntry.asked, TypeLike.filterMap_ref?] at hr
      | _ =>
        cases hentry
        exact ⟨Grows.refl _, hc, fun r hr => absurd hr List.not_mem_nil⟩
    obtain ⟨hgrows, hu, hkeys⟩ := hhere
    obtain ⟨hgrows', hd, hkeys'⟩ := ih hu hrest
    refine ⟨hgrows.trans hgrows', hd, fun x hx => ?_⟩
    rcases List.mem_cons.1 hx with rfl | hx
    · exact fun r hr => hgrows'.classes.mem_keys (hkeys r hr)
    · exact hkeys' x hx

end Roster

/-- What a plan of the resolved request may ask for is among the manifests read. -/
theorem Request.covers_of_resolved {q q' : Request} {base : SymbolRef} {mixins : List SymbolRef}
    {entries : Entries CombinatorEntry} {s₀ s₁ s₂ : Roster} (hstop : stop.Sound)
    (hbase : (Roster.resolve w q.base).runFrom stop = (.ok base, s₀))
    (hmixins : (q.mixins.mapM (Roster.resolve w)).runFrom s₀ = (.ok mixins, s₁))
    (hentries : (CombinatorEntry.resolvedAll w q.combinators).runFrom s₁ = (.ok entries, s₂))
    (hq' : q' = { q with base := .ref base, mixins := mixins.map .ref, combinators := entries })
    (hms : (q'.manifests w).runFrom s₂ = (.ok ms, final)) : stop.Grows final ∧
      (∀ r ∈ base :: mixins, (Provider.table ms).has r.path = true ∧ CoversAll final ms r) ∧
      ∀ e ∈ entries, ∀ r ∈ e.2.asked, (Provider.table ms).has r.path = true := by
  have hfuture := Roster.future_resolve (w := w) hstop q.base
  rw [hbase] at hfuture
  obtain ⟨hg₀, hs₀⟩ := hfuture
  obtain ⟨hg₁, hs₁, hmixed⟩ := Roster.claimed_of_resolveAll hs₀ hmixins
  obtain ⟨hg₂, hs₂, hasked⟩ := Roster.claimed_of_resolvedAll hs₁ hentries
  obtain ⟨hgrows, hcovers, horders⟩ := Request.covers_of_manifests hs₂ hms
  have hcontributors : q'.contributors = base :: mixins := by
    rw [hq']
    show base :: (mixins.map TypeLike.ref).filterMap TypeLike.ref? = _
    rw [TypeLike.filterMap_ref?]
  refine ⟨((hg₀.trans hg₁).trans hg₂).trans hgrows, fun r hr => hcovers r (hcontributors ▸ hr) ?_, fun e he r hr => ?_⟩
  · rcases List.mem_cons.1 hr with rfl | hr
    · exact (hg₁.trans hg₂).classes.mem_keys (Roster.mem_keys_of_resolve hbase)
    · exact hg₂.classes.mem_keys (hmixed r hr)
  · refine horders r (List.mem_flatMap.2 ⟨e, ?_, e.2.asked_subset_order hr⟩) (hasked e he r hr)
    rw [hq']
    exact he

/-! ## Blueprints -/

namespace Blueprint

/-- All of a blueprint but the live objects. -/
def detached (b : Blueprint) : Blueprint := { b with bindings := [] }

theorem symbolsOf_congr {claims claims' : Claims} (h : claims.map Prod.fst = claims'.map Prod.fst) :
    symbolsOf claims = symbolsOf claims' := by
  have hfold : ∀ claims : Claims, symbolsOf claims =
      (claims.map Prod.fst).foldl (fun (t : Entries SymbolRef) r => t.putNew r.path r) [] := by
    intro claims
    rw [List.foldl_map]
    rfl
  rw [hfold, hfold, h]

theorem detached_ofClaims {o : Outline} {claims claims' : Claims} (h : claims.map Prod.fst = claims'.map Prod.fst) :
    (ofClaims o claims).detached = (ofClaims o claims').detached := by
  unfold ofClaims detached
  rw [symbolsOf_congr h]

variable {σ : Type} {p : Provider σ} {d : Defaults} {strict : Bool} {q : Request} {t u : Planning σ}

theorem claimsOf_of_ok {o : Outline} {s : σ} {joined : Claims}
    (h : combinatorClaims o.context.specs o.methods = .ok joined) : claimsOf p d o s =
      .ok ((o.mix.participants ++ o.extra).map (fun r => (r, p.binding r s)) ++ joined ++ supportClaims d o.methods) := by
  unfold claimsOf
  rw [h]
  rfl

theorem claimsOf_of_error {o : Outline} {s : σ} {e : Failure}
    (h : combinatorClaims o.context.specs o.methods = .error e) : claimsOf p d o s = .error e := by
  unfold claimsOf
  rw [h]
  rfl

/--
Planning from manifests is planning from live classes. Whatever a provider of live classes has been asked before, let a
build from it end in a state from which the classes of the request resolve, and let the manifests of these classes and of
the contributors' capability sets be read from there. Then the build of the same request from these manifests gives the
same blueprint but for live objects, or the same failure, with the same notices.
-/
theorem build_ofManifests {w : World} {d : Defaults} {strict : Bool} {q q' : Request} {s t : Planning Roster}
    {r : Except Failure Blueprint} {c : Roster} (reachable : s.provider.Reachable)
    (live : (build (Provider.live w) d strict q).runFrom s = (r, t))
    (resolves : (q.resolved w).runFrom t.provider = (.ok q', c)) :
    ∃ ms c', (q'.manifests w).runFrom c = (.ok ms, c') ∧
      ∃ r', (build (Provider.ofManifests ms) d strict q').runFrom ⟨(), s.notices⟩ = (r', ⟨(), t.notices⟩) ∧
        r'.map detached = r.map detached := by
  obtain ⟨base, s₀, hbase, h⟩ := Act.bind_eq_ok.1 resolves
  obtain ⟨mixins, s₁, hmixins, h⟩ := Act.bind_eq_ok.1 h
  obtain ⟨entries, s₂, hentries, h⟩ := Act.bind_eq_ok.1 h
  obtain ⟨ms, c', hms⟩ := q'.exists_manifests w c
  refine ⟨ms, c', hms, ?_⟩
  obtain ⟨hq', rfl⟩ : q' = { q with base := .ref base, mixins := mixins.map .ref, combinators := entries } ∧ s₂ = c := by
    cases h
    exact ⟨rfl, rfl⟩
  have hcovers := fun hstop => Request.covers_of_resolved hstop hbase hmixins hentries hq' hms
  have hfollows : Follows .plan t.provider (fun _ _ => True) (outline (Provider.live w) d strict q)
      (outline (Provider.ofManifests ms) d strict q') s :=
    follows_outline (fun hstop => (hcovers hstop).1) reachable.sound hbase hmixins hentries hq'
      (fun hstop => (hcovers hstop).2.1) fun hstop => (hcovers hstop).2.2
  have hname : q'.name = q.name := by rw [hq']
  unfold Follows at hfollows
  generalize houtline : (outline (Provider.live w) d strict q).runFrom s = done at hfollows
  obtain ⟨outcome, u⟩ := done
  cases outcome with
  | error e =>
    rw [build_of_outline_error houtline] at live
    cases live
    obtain ⟨⟨_, notices⟩, hv, hsame⟩ := hfollows.same ⟨(), s.notices⟩ rfl rfl
    obtain rfl : t.notices = notices := hsame
    exact ⟨.error e, build_of_outline_error hv, rfl⟩
  | ok o =>
    rw [build_of_outline houtline] at live
    have hprovider : t.provider = u.provider := by
      cases hclaims : claimsOf (Provider.live w) d o u.provider <;> rw [hclaims] at live <;> cases live <;> rfl
    have hend : u.provider.Precedes t.provider := by
      rw [hprovider]
      exact ⟨Roster.Grows.refl _, hfollows.sound⟩
    obtain ⟨⟨_, notices⟩, hv, hsame⟩ := hfollows.same ⟨(), s.notices⟩ rfl hend
    obtain rfl : u.notices = notices := hsame
    rw [build_of_outline hv, hname]
    -- Both plans claim the same symbols; they differ in the live objects of the contributors alone.
    cases hjoined : combinatorClaims o.context.specs o.methods with
    | error e =>
      rw [claimsOf_of_error hjoined] at live ⊢
      cases live
      exact ⟨.error e, rfl, rfl⟩
    | ok joined =>
      rw [claimsOf_of_ok hjoined] at live ⊢
      cases live
      refine ⟨_, rfl, congrArg Except.ok (detached_ofClaims ?_)⟩
      simp [List.map_map, Function.comp_def]

end Blueprint

/-- Two classes of one name, the first of them with an abstract ancestor. -/
def World.twins : World :=
  { fresh with
    classes := fresh.classes ++
      #[{ name := "Priced", qualname := "Priced", home := "shop", order := [absentId + 1, objectId], hasAbstracts := true },
        { name := "Cart", qualname := "Cart", home := "shop", order := [absentId + 2, absentId + 1, objectId],
          slots := [("total", .routine .ofInstance 9)] },
        { name := "Cart", qualname := "Cart", home := "shop", order := [absentId + 3, objectId],
          slots := [("total", .routine .ofInstance 10)] }]
    functions := fresh.functions ++
      #[{ name := "total", qualname := "Cart.total", home := "shop", params := [{ name := "self" }], body := .nothing },
        { name := "total", qualname := "Cart.total", home := "shop", params := [{ name := "self" }], body := .nothing },
        { name := "add", qualname := "add", home := "shop", body := .join "add" .cat }] }

/-- Both of them are to be asked, the second one first. -/
def Request.twins : Request where
  name := "Sale"
  base := .live 8 ⟨"shop", "Cart"⟩
  mixins := [.live 9 ⟨"shop", "Cart"⟩]
  combinators := [("total", .ordered (.live (.function 11) ⟨"shop", "add"⟩)
    [.live 9 ⟨"shop", "Cart"⟩, .live 8 ⟨"shop", "Cart"⟩])]

theorem Blueprint.build_ofManifests_twins : ∃ b t q' c ms c' b' t',
    (build (Provider.live .twins) Session.defaults true .twins).runFrom ⟨{}, []⟩ = (.ok b, t) ∧
      (Request.twins.resolved .twins).runFrom t.provider = (.ok q', c) ∧
      (q'.manifests .twins).runFrom c = (.ok ms, c') ∧
      (build (Provider.ofManifests ms) Session.defaults true q').runFrom ⟨(), []⟩ = (.ok b', t') ∧
      b'.detached = b.detached ∧ b.header.mixins = ["shop:Cart#2"] ∧ b.header.capabilitySets = ["shop:Priced"] := by
  generalize hrun : (build (Provider.live .twins) Session.defaults true .twins).runFrom (⟨{}, []⟩ : Planning Roster) = r
  have hheader : (r.1.toOption.map fun b => (b.header.mixins, b.header.capabilitySets)) =
      some (["shop:Cart#2"], ["shop:Priced"]) := by
    rw [← hrun]
    decide +kernel
  have hresolved : ((Request.twins.resolved .twins).runFrom r.2.provider).1.toOption.isSome = true := by
    rw [← hrun]
    decide +kernel
  obtain ⟨outcome, t⟩ := r
  generalize hq : (Request.twins.resolved .twins).runFrom t.provider = resolved at hresolved
  obtain ⟨resolution, c⟩ := resolved
  cases outcome with
  | error e => cases hheader
  | ok b =>
    cases resolution with
    | error e => cases hresolved
    | ok q' =>
      obtain ⟨ms, c', hms, r', hr', hsame⟩ := build_ofManifests .new hrun hq
      have hheader := Option.some.inj hheader
      rw [Prod.mk.injEq] at hheader
      cases r' with
      | error e => cases hsame
      | ok b' => exact ⟨b, t, q', c, ms, c', b', _, rfl, hq, hms, hr', Except.ok.inj hsame, hheader.1, hheader.2⟩

end Amalgam
