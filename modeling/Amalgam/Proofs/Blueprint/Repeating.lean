import Amalgam.Proofs.Blueprint.Outline
import Amalgam.Proofs.Blueprint.Quiet
import Amalgam.Proofs.World.Serving
import Amalgam.Session
import Amalgam.World.Fresh

/-!
# Builds can be repeated

A provider of live classes learns with every question and forgets nothing. A step of a plan repeats itself
(`Act.Repeats`) if it keeps what was learnt and, once it has given a result, gives it again from every later state, in
which it has nothing to learn. Steps that ask nothing do so (`Repeats.of_quiet`), the questions of a plan do, and
sequences do if their parts do (`Repeats.bind`). So a build that has succeeded gives the same blueprint after any
further questions and builds (`build_repeats`).
-/

namespace Amalgam

variable {σ α β : Type}

/-- An outcome and the state left: what was learnt is kept, and a result is that of every state grown from this one. -/
structure Act.Settled (roster : σ → Roster) (P : α → Roster → Prop) (x : Act σ α) (s : σ) (r : Except Failure α)
    (t : σ) : Prop where
  grows : (roster s).Grows (roster t)
  sound : (roster t).Sound
  post : ∀ a, r = .ok a → P a (roster t)
  again : ∀ a, r = .ok a → ∀ u, (roster t).Grows (roster u) → ∃ v, x.runFrom u = (.ok a, v) ∧ roster v = roster u

/-- An operation that, from a state, is settled once it has been done. -/
def Act.Repeats (roster : σ → Roster) (P : α → Roster → Prop) (x : Act σ α) (s : σ) : Prop :=
  Act.Settled roster P x s (x.runFrom s).1 (x.runFrom s).2

namespace Act.Repeats

variable {roster : σ → Roster} {P : α → Roster → Prop} {Q : β → Roster → Prop} {x : Act σ α} {f : α → Act σ β} {s : σ}

protected theorem pure (hs : (roster s).Sound) {a : α} (h : P a (roster s)) : Repeats roster P (pure a) s where
  grows := Roster.Grows.refl _
  sound := hs
  post b hb := by
    cases hb
    exact h
  again b hb u _ := ⟨u, Prod.ext hb rfl, rfl⟩

/-- A result of which nothing is said. -/
theorem done (hs : (roster s).Sound) (a : α) : Repeats roster (fun _ _ => True) (pure a) s := Repeats.pure hs trivial

protected theorem throw (hs : (roster s).Sound) (e : Failure) : Repeats roster P (throw e) s where
  grows := Roster.Grows.refl _
  sound := hs
  post a ha := by cases ha
  again a ha := by cases ha

theorem mono {P' : α → Roster → Prop} (h : Repeats roster P x s) (hP : ∀ a c, (roster s).Grows c → P a c → P' a c) :
    Repeats roster P' x s :=
  ⟨h.grows, h.sound, fun a ha => hP a _ h.grows (h.post a ha), h.again⟩

/-- In a later state the first part gives what it gave and changes nothing, so the second part has a later state too. -/
protected theorem bind (hx : Repeats roster P x s)
    (hf : ∀ a t, (roster s).Grows (roster t) → (roster t).Sound → P a (roster t) → Repeats roster Q (f a) t) :
    Repeats roster Q (x >>= f) s := by
  unfold Repeats at hx ⊢
  rw [Act.runFrom_bind]
  generalize x.runFrom s = done at hx
  obtain ⟨r, t⟩ := done
  cases r with
  | error e => exact ⟨hx.grows, hx.sound, fun b hb => (by cases hb), fun b hb => (by cases hb)⟩
  | ok a =>
    have hnext := hf a t hx.grows hx.sound (hx.post a rfl)
    refine ⟨hx.grows.trans hnext.grows, hnext.sound, hnext.post, fun b hb u hu => ?_⟩
    obtain ⟨v, hv, hkept⟩ := hx.again a rfl u (hnext.grows.trans hu)
    obtain ⟨v', hv', hsame⟩ := hnext.again b hb v (hkept ▸ hu)
    exact ⟨v', Act.bind_eq_ok.2 ⟨a, v, hv, hv'⟩, hsame.trans hkept⟩

/-- One operation for each item. -/
protected theorem mapM {P : β → Roster → Prop} {f : α → Act σ β} {as : List α} (hs : (roster s).Sound)
    (later : ∀ b c c', Roster.Grows c c' → P b c → P b c')
    (h : ∀ a ∈ as, ∀ t, (roster s).Grows (roster t) → (roster t).Sound → Repeats roster P (f a) t) :
    Repeats roster (fun bs c => ∀ b ∈ bs, P b c) (as.mapM f) s := by
  induction as generalizing s with
  | nil => exact Repeats.pure hs fun b hb => absurd hb List.not_mem_nil
  | cons a as ih =>
    rw [List.mapM_cons]
    refine (h a List.mem_cons_self s (Roster.Grows.refl _) hs).bind fun b t hst ht hb => ?_
    have hrest := ih ht fun a ha t' htt' => h a (List.mem_cons_of_mem _ ha) t' (hst.trans htt')
    refine hrest.bind fun bs t' htt' ht' hbs => Repeats.pure ht' fun b' hb' => ?_
    rcases List.mem_cons.1 hb' with rfl | hb'
    · exact later _ _ _ htt' hb
    · exact hbs b' hb'

end Act.Repeats

open Act (Repeats)

theorem Act.Repeats.of_quiet {x : Planner Roster α} {s : Planning Roster} (hs : s.provider.Sound)
    (h : Planner.Quiet x) : Repeats Planning.provider (fun _ _ => True) x s := by
  obtain ⟨r, told, h⟩ := h
  unfold Repeats
  rw [h]
  refine ⟨Roster.Grows.refl _, hs, fun _ _ => trivial, fun a ha u _ =>
    ⟨{ u with notices := u.notices ++ told }, ?_, rfl⟩⟩
  rw [h, show r = .ok a from ha]

/-! ## Questions to a provider of live classes -/

variable {w : World}

/-- A reference is claimed. -/
def Roster.Has (c : Roster) (r : SymbolRef) : Prop := r.path ∈ c.classes.keys

theorem Roster.Has.later {c c' : Roster} {r : SymbolRef} (h : c.Has r) (grows : c.Grows c') : c'.Has r :=
  grows.classes.mem_keys h

theorem Planner.repeats_ask {x : Act Roster α} {P : α → Roster → Prop} {s : Planning Roster}
    (h : Repeats id P x s.provider) : Repeats Planning.provider P (ask x) s where
  grows := h.grows
  sound := h.sound
  post := h.post
  again a ha u hu := by
    obtain ⟨v, hv, hkept⟩ := h.again a ha u.provider hu
    refine ⟨{ u with provider := v }, ?_, hkept⟩
    rw [runFrom_ask, hv]

namespace Roster

variable {c : Roster}

theorem repeats_resolve (hc : c.Sound) (t : TypeLike) : Repeats id (fun r c => c.Has r) (resolve w t) c := by
  obtain ⟨hgrows, hsound⟩ := future_resolve (w := w) hc t
  refine ⟨hgrows, hsound, fun r hr => mem_keys_of_resolve (Prod.ext hr rfl), fun r hr u hu => ⟨u, ?_, rfl⟩⟩
  exact resolve_settles (Prod.ext hr rfl) hu.classes

theorem repeats_manifest (hc : c.Sound) (r : SymbolRef) :
    Repeats id (fun m c => ∀ set ∈ m.capabilitySets, c.Has set) (manifest w r) c := by
  obtain ⟨hgrows, hsound⟩ := future_manifest (w := w) hc r
  refine ⟨hgrows, hsound, fun m hm => (claimed_of_manifest hc.listed (Prod.ext hm rfl)).2.2,
    fun m hm u hu => ⟨u, ?_, rfl⟩⟩
  have hkept : u.manifests.get? r.path = some m := hu.manifests _ _ (get?_of_manifest (w := w) (Prod.ext hm rfl))
  unfold manifest
  rw [Act.runFrom_bind, Act.runFrom_get]
  dsimp only
  rw [hkept]
  rfl

theorem repeats_capabilitySets (hc : c.Sound) (r : SymbolRef) :
    Repeats id (fun sets c => ∀ set ∈ sets, c.Has set) ((Provider.live w).capabilitySets r) c :=
  (repeats_manifest hc r).bind fun _ _ _ ht hm => Repeats.pure ht hm

theorem repeats_eligibleMembers (hc : c.Sound) (r : SymbolRef) (role : Role) :
    Repeats id (fun _ _ => True) ((Provider.live w).eligibleMembers r role) c :=
  (repeats_manifest hc r).bind fun _ _ _ ht _ => Repeats.done ht _

end Roster

theorem Fields.repeats_addContributors {c : Roster} (hc : c.Sound) (done : List FieldDef) (rs : List SymbolRef) :
    Repeats id (fun _ _ => True) (addContributors (Provider.live w) done rs) c := by
  induction rs generalizing c done with
  | nil => exact Repeats.done hc _
  | cons r rest ih =>
    refine (Roster.repeats_manifest hc r).bind fun m t _ ht _ => ?_
    unfold Act.ofExcept
    cases addAll r done m.fields with
    | error e => exact Repeats.throw ht e
    | ok more => exact ih ht more

namespace CombinatorSpec

variable {c : Roster}

theorem repeats_of (hc : c.Sound) (f : Callee) (order : Option (List SymbolRef)) :
    Repeats id (fun _ _ => True) (of f order) c := by
  cases f with
  | text path =>
    have hparsed : Repeats id (fun _ _ => True) (Provider.parse path) c := by
      unfold Provider.parse
      cases SymbolRef.parse? path with
      | none => exact Repeats.throw hc _
      | some r => exact Repeats.done hc _
    exact hparsed.bind fun r t _ ht _ => Repeats.done ht _
  | live handle ref => exact Repeats.done hc _
  | nameless shown => exact Repeats.throw hc _
  | other shown => exact Repeats.throw hc _

theorem repeats_parse (hc : c.Sound) (participants : List SymbolRef) (member : String) (entry : CombinatorEntry) :
    Repeats id (fun _ _ => True) (parse (Provider.live w) participants member entry) c := by
  have hchecked : ∀ (spec : CombinatorSpec) (t : Roster), t.Sound →
      Repeats id (fun _ _ => True) (checkOrder member participants spec >>= fun _ => pure spec) t := by
    intro spec t ht
    unfold checkOrder
    split
    · exact Repeats.throw ht _
    · exact Repeats.done ht _
  cases entry with
  | ready spec => exact hchecked spec c hc
  | ordered f order =>
    have hresolved : Repeats id (fun _ _ => True) (order.mapM (Roster.resolve w)) c :=
      (Repeats.mapM hc (fun _ _ _ hg h => h.later hg) fun t _ u _ hu => Roster.repeats_resolve hu t).mono
        fun _ _ _ _ => trivial
    refine hresolved.bind fun refs t _ ht _ => ?_
    exact (repeats_of ht f (some refs)).bind fun spec u _ hu _ => hchecked spec u hu
  | badSequence shown => exact Repeats.throw hc _
  | single f =>
    cases f with
    | other shown => exact Repeats.throw hc _
    | _ => exact (repeats_of hc _ none).bind fun spec t _ ht _ => hchecked spec t ht

theorem repeats_parseFrom (hc : c.Sound) (participants : List SymbolRef) (specs : Entries CombinatorSpec)
    (claimed : Entries Handle) (entries : Entries CombinatorEntry) :
    Repeats id (fun _ _ => True) (parseFrom (Provider.live w) participants specs claimed entries) c := by
  induction entries generalizing c specs claimed with
  | nil => exact Repeats.done hc _
  | cons e rest ih =>
    obtain ⟨member, entry⟩ := e
    exact (repeats_parse hc participants member entry).bind fun spec t _ ht _ => ih ht _ _

end CombinatorSpec

/-! ## Whole plans -/

namespace Blueprint

variable {s : Planning Roster} {d : Defaults} {strict : Bool} {q : Request}

open Planner

theorem repeats_resolveMix (hs : s.provider.Sound) (q : Request) :
    Repeats Planning.provider (fun x c => ∀ r ∈ x.participants, c.Has r) (resolveMix (Provider.live w) q) s := by
  unfold resolveMix
  rw [mapM_ask]
  refine (repeats_ask (Roster.repeats_resolve hs q.base)).bind fun base t _ ht hbase => ?_
  have hall : Repeats id (fun rs c => ∀ r ∈ rs, c.Has r) (q.mixins.mapM (Roster.resolve w)) t.provider :=
    Repeats.mapM ht (fun _ _ _ hg h => h.later hg) fun type _ u _ hu => Roster.repeats_resolve hu type
  refine ((repeats_ask hall).mono fun rs c hc hrs => And.intro hrs (hbase.later hc)).bind
    fun mixins u _ hu hmixed => ?_
  split
  · exact Repeats.throw hu _
  · refine Repeats.pure hu fun r hr => ?_
    rcases List.mem_cons.1 hr with rfl | hr
    · exact hmixed.2
    · exact hmixed.1 r hr

/-- The manifest of a set that is claimed is always there, so the set is never taken to inherit none. -/
theorem repeats_setsAbove (hs : s.provider.Sound) {set : SymbolRef} (h : s.provider.Has set) :
    Repeats Planning.provider (fun _ _ => True) (setsAbove (Provider.live w) set) s := by
  have hserved : ∀ t : Planning Roster, t.provider.Has set →
      (setsAbove (Provider.live w) set).runFrom t = (ask ((Provider.live w).capabilitySets set)).runFrom t := by
    intro t ht
    obtain ⟨m, c', hm⟩ := Roster.exists_manifest (w := w) ht
    have hsets : ((Provider.live w).capabilitySets set).runFrom t.provider = (.ok m.capabilitySets, c') :=
      Act.bind_eq_ok.2 ⟨m, c', hm, rfl⟩
    have hasked : (ask ((Provider.live w).capabilitySets set)).runFrom t =
        (.ok m.capabilitySets, { t with provider := c' }) := by
      rw [runFrom_ask, hsets]
    rw [hasked, setsAbove_of_ok hasked]
  obtain ⟨hgrows, hsound, -, hagain⟩ := repeats_ask (s := s) (Roster.repeats_capabilitySets (w := w) hs set)
  unfold Repeats
  rw [hserved s h]
  refine ⟨hgrows, hsound, fun _ _ => trivial, fun a ha u hu => ?_⟩
  rw [hserved u (h.later (hgrows.trans hu))]
  exact hagain a ha u hu

theorem repeats_minimal (hs : s.provider.Sound) {sets : List SymbolRef} (h : ∀ r ∈ sets, s.provider.Has r) :
    Repeats Planning.provider (fun kept c => ∀ r ∈ kept, c.Has r) (minimal (Provider.live w) sets) s := by
  have himplied : ∀ {some : List SymbolRef} {t : Planning Roster}, t.provider.Sound → (∀ r ∈ some, t.provider.Has r) →
      Repeats Planning.provider (fun _ _ => True) (implied (Provider.live w) some) t := by
    intro some
    induction some with
    | nil => exact fun ht _ => Repeats.done ht _
    | cons set rest ih =>
      intro t ht h
      refine (repeats_setsAbove ht (h set List.mem_cons_self)).bind fun above u htu hu _ => ?_
      exact (ih hu fun r hr => (h r (List.mem_cons_of_mem _ hr)).later htu).bind fun _ _ _ hv _ => Repeats.done hv _
  refine (himplied hs h).bind fun above t hst ht _ => Repeats.pure ht fun r hr => ?_
  exact (h r (List.mem_filter.1 hr).1).later hst

theorem repeats_planHeader (hs : s.provider.Sound) (name : String) (x : Mix) :
    Repeats Planning.provider (fun r c => ∀ set ∈ r.2, c.Has set) (planHeader (Provider.live w) name x) s := by
  unfold planHeader
  rw [mapM_ask]
  have hall : Repeats id (fun served c => ∀ sets ∈ served, ∀ set ∈ sets, c.Has set)
      (x.participants.mapM (Provider.live w).capabilitySets) s.provider :=
    Repeats.mapM hs (fun _ _ _ hg h set hset => (h set hset).later hg) fun r _ u _ hu =>
      Roster.repeats_capabilitySets hu r
  refine (repeats_ask hall).bind fun served t _ ht hserved => ?_
  refine (repeats_minimal ht fun r hr => ?_).bind fun extra u _ hu hextra => Repeats.pure hu hextra
  obtain ⟨sets, hsets, hr⟩ := List.mem_flatten.1 (mem_union.1 (List.mem_filter.1 hr).1)
  exact hserved sets hsets r hr

theorem repeats_memberMap (hs : s.provider.Sound) (role : Role) (members : MemberMap) (contributors : List SymbolRef) :
    Repeats Planning.provider (fun _ _ => True) (memberMap (Provider.live w) role members contributors) s := by
  induction contributors generalizing s role members with
  | nil => exact Repeats.done hs _
  | cons r rest ih =>
    exact (repeats_ask (Roster.repeats_eligibleMembers hs r role)).bind fun eligible t _ ht _ => ih ht .mixin _

theorem repeats_planContext (hs : s.provider.Sound) (x : Mix) (members : MemberMap) :
    Repeats Planning.provider (fun _ _ => True) (planContext (Provider.live w) d strict q x members) s := by
  unfold planContext
  refine (repeats_ask (CombinatorSpec.repeats_parseFrom hs x.participants [] [] q.combinators)).bind
    fun specs t _ ht _ => Repeats.of_quiet ht ?_
  refine (quiet_knownSpecs strict members.keys specs).bind fun specs => (quiet_ofExcept _).bind fun beforeNames => ?_
  refine (Cutpoints.quiet_usable strict .before members.keys beforeNames).bind fun before => ?_
  refine (quiet_ofExcept _).bind fun afterNames => ?_
  exact (Cutpoints.quiet_usable strict .after members.keys afterNames).bind fun after => quiet_pure _

theorem repeats_outline (w : World) (d : Defaults) (strict : Bool) (q : Request) (hs : s.provider.Sound) :
    Repeats Planning.provider (fun o c => ∀ r ∈ o.mix.participants ++ o.extra, c.Has r)
      (outline (Provider.live w) d strict q) s := by
  unfold outline
  split
  · exact Repeats.throw hs _
  refine (repeats_resolveMix hs q).bind fun mix t _ ht hmix => ?_
  refine (repeats_planHeader ht q.name mix).bind fun header u htu hu hextra => ?_
  obtain ⟨header, extra⟩ := header
  have hclaimed : ∀ r ∈ mix.participants ++ extra, u.provider.Has r := fun r hr =>
    (List.mem_append.1 hr).elim (fun hr => (hmix r hr).later htu) (hextra r)
  refine (repeats_ask (Fields.repeats_addContributors hu _ _)).bind fun fields v huv hv _ => ?_
  refine (repeats_memberMap hv .base [] mix.participants).bind fun members x hvx hx _ => ?_
  refine (repeats_planContext hx mix members).bind fun context y hxy hy _ => ?_
  refine (Repeats.of_quiet hy (quiet_planMethods strict context members)).bind fun methods z hyz hz _ => ?_
  exact Repeats.pure hz fun r hr => (hclaimed r hr).later (((huv.trans hvx).trans hxy).trans hyz)

/-- The live objects behind the classes of a plan are those of the state in which they were claimed. -/
theorem claimsOf_of_grows {o : Outline} {c c' : Roster} (hgrows : c.Grows c')
    (h : ∀ r ∈ o.mix.participants ++ o.extra, c.Has r) :
    claimsOf (Provider.live w) d o c' = claimsOf (Provider.live w) d o c := by
  have hown : (o.mix.participants ++ o.extra).map (fun r => (r, (Provider.live w).binding r c')) =
      (o.mix.participants ++ o.extra).map fun r => (r, (Provider.live w).binding r c) := by
    refine List.map_congr_left fun r hr => ?_
    cases hget : c.classes.get? r.path with
    | none => exact absurd (h r hr) ((Entries.get?_eq_none_iff _ _).1 hget)
    | some id =>
      show (r, (c'.classes.get? r.path).map Handle.cls) = (r, (c.classes.get? r.path).map Handle.cls)
      rw [hget, hgrows.classes _ _ hget]
  unfold claimsOf
  rw [hown]

theorem repeats_build (w : World) (d : Defaults) (strict : Bool) (q : Request) (hs : s.provider.Sound) :
    Repeats Planning.provider (fun _ _ => True) (build (Provider.live w) d strict q) s := by
  have houtline := repeats_outline w d strict q hs
  unfold Repeats at houtline ⊢
  generalize hrun : (outline (Provider.live w) d strict q).runFrom s = done at houtline
  obtain ⟨r, t⟩ := done
  obtain ⟨hgrows, hsound, hclaimed, hagain⟩ := houtline
  cases r with
  | error e =>
    rw [build_of_outline_error hrun]
    exact ⟨hgrows, hsound, fun _ _ => trivial, fun b hb => (by cases hb)⟩
  | ok o =>
    rw [build_of_outline hrun]
    cases hclaims : claimsOf (Provider.live w) d o t.provider with
    | error e => exact ⟨hgrows, hsound, fun _ _ => trivial, fun b hb => (by cases hb)⟩
    | ok claims =>
      refine ⟨hgrows, hsound, fun _ _ => trivial, fun b hb u hu => ?_⟩
      obtain ⟨v, hv, hkept⟩ := hagain o rfl u hu
      have hsame : claimsOf (Provider.live w) d o v.provider = .ok claims := by
        rw [hkept, claimsOf_of_grows hu (hclaimed o rfl), hclaims]
      rw [build_of_outline hv, hsame]
      exact ⟨_, Prod.ext hb rfl, hkept⟩

end Blueprint

/-! ## Any further questions -/

/-- What a provider of live classes may be asked for, in the world of that time. -/
inductive Roster.Query where
  | resolve (w : World) (t : TypeLike)
  | manifest (w : World) (r : SymbolRef)
  | build (w : World) (d : Blueprint.Defaults) (strict : Bool) (q : Request)

/-- What a provider remembers after one more question, answered or not. -/
def Roster.after (c : Roster) : Query → Roster
  | .resolve w t => ((Roster.resolve w t).runFrom c).2
  | .manifest w r => ((Roster.manifest w r).runFrom c).2
  | .build w d strict q => ((Blueprint.build (Provider.live w) d strict q).runFrom ⟨c, []⟩).2.provider

namespace Roster

/-- No question makes a provider forget. -/
theorem grows_after {c : Roster} (hc : c.Sound) (query : Query) : c.Grows (c.after query) ∧ (c.after query).Sound := by
  cases query with
  | resolve w t => exact future_resolve hc t
  | manifest w r => exact future_manifest hc r
  | build w d strict q =>
    have h := Blueprint.repeats_build (s := ⟨c, []⟩) w d strict q hc
    exact ⟨h.grows, h.sound⟩

/-- Nor do any number of them. -/
theorem grows_history {c : Roster} (hc : c.Sound) (history : List Query) :
    c.Grows (history.foldl after c) ∧ (history.foldl after c).Sound := by
  induction history generalizing c with
  | nil => exact ⟨Grows.refl c, hc⟩
  | cons query rest ih =>
    obtain ⟨hgrows, hsound⟩ := grows_after hc query
    obtain ⟨hrest, hend⟩ := ih hsound
    exact ⟨hgrows.trans hrest, hend⟩

end Roster

/--
Builds can be repeated. Let a provider of live classes be in whatever state its questions so far have left it in, and
let a build from it succeed. After any further questions and builds, whatever they are about and whether they succeed or
not, the same build gives the same blueprint, live objects included, and leaves the provider as it is.
-/
theorem Blueprint.build_repeats {w : World} {d : Defaults} {strict : Bool} {q : Request} {s t : Planning Roster}
    {b : Blueprint} (reachable : s.provider.Reachable)
    (built : (build (Provider.live w) d strict q).runFrom s = (.ok b, t)) (history : List Roster.Query)
    (notices : List Notice) :
    ∃ u, (build (Provider.live w) d strict q).runFrom ⟨history.foldl Roster.after t.provider, notices⟩ = (.ok b, u) ∧
      u.provider = history.foldl Roster.after t.provider := by
  have h := repeats_build w d strict q reachable.sound
  unfold Act.Repeats at h
  rw [built] at h
  exact h.again b rfl ⟨_, notices⟩ (Roster.grows_history h.sound history).1

/-- Two classes of one name, the second of which inherits the first, an abstract one. -/
def World.heirs : World :=
  { fresh with
    classes := fresh.classes ++
      #[{ name := "Cart", qualname := "Cart", home := "shop", order := [absentId + 1, objectId], hasAbstracts := true,
          slots := [("total", .routine .ofInstance 9)] },
        { name := "Cart", qualname := "Cart", home := "shop", order := [absentId + 2, absentId + 1, objectId],
          slots := [("add", .routine .ofInstance 9)] }]
    functions := fresh.functions ++
      #[{ name := "run", qualname := "Cart.run", home := "shop", params := [{ name := "self" }], body := .nothing }] }

/-- A sale from the second of them. -/
def Request.heirs : Request where
  name := "Sale"
  base := .live 8 ⟨"shop", "Cart"⟩

/-- The base got the name first, and its ancestor keeps the second one, though it is asked for in between. -/
theorem Blueprint.build_repeats_heirs : ∃ b t u,
    (build (Provider.live .heirs) Session.defaults true .heirs).runFrom ⟨{}, []⟩ = (.ok b, t) ∧
      b.header.capabilitySets = ["shop:Cart#2"] ∧
      (build (Provider.live .heirs) Session.defaults true .heirs).runFrom
        ⟨[Roster.Query.resolve .heirs (.live 7 ⟨"shop", "Cart"⟩),
          .build .heirs Session.defaults false { name := "Other", base := .live 7 ⟨"shop", "Cart"⟩ }].foldl Roster.after
            t.provider, []⟩ = (.ok b, u) := by
  generalize hrun : (build (Provider.live .heirs) Session.defaults true .heirs).runFrom
    (⟨{}, []⟩ : Planning Roster) = r
  have hsets : (r.1.toOption.map fun b => b.header.capabilitySets) = some ["shop:Cart#2"] := by
    rw [← hrun]
    decide +kernel
  obtain ⟨outcome, t⟩ := r
  cases outcome with
  | error e => cases hsets
  | ok b =>
    obtain ⟨u, hu, -⟩ := build_repeats .new hrun
      [.resolve .heirs (.live 7 ⟨"shop", "Cart"⟩),
        .build .heirs Session.defaults false { name := "Other", base := .live 7 ⟨"shop", "Cart"⟩ }] []
    exact ⟨b, t, u, rfl, Option.some.inj hsets, hu⟩

end Amalgam
