import Amalgam.Proofs.Blueprint.Causes
import Amalgam.Proofs.Blueprint.Registration
import Amalgam.Proofs.Symbol
import Amalgam.Proofs.World.Serving

/-!
# What a plan asks the provider to resolve

A plan asks for its contributors one after another, and then for the classes of the orders (`Blueprint.Asks`). A failure that is
not of this library's own comes of such a question (`Blueprint.failed_iff`). Of given manifests none does. Of live classes it
is the question for a text that leads into a module whose name begins with a dot (`Blueprint.failed_live_iff`).
-/

namespace Amalgam

open Act (FailsWith failsWith_pure failsWith_refuse failsWith_ofExcept)

/-- The classes that an order of the entry names. -/
def CombinatorEntry.types : CombinatorEntry → List TypeLike
  | .ordered _ types => types
  | _ => []

/-- The classes that a request names. -/
def Request.types (q : Request) : List TypeLike := q.base :: q.mixins ++ q.combinators.flatMap fun e => e.2.types

/-- A request with only some of its combinators, and without cutpoints. -/
def Request.upTo (q : Request) (before : Entries CombinatorEntry) : Request :=
  { q with combinators := before, before := .nothing, after := .nothing }

namespace Blueprint

/--
In a plan from a state, the provider is asked to resolve a class, after what comes before went well: a contributor after those
that are named before it, or a class of an order where the contributors and the combinators before it can be planned.
-/
inductive Asks {σ : Type} (p : Provider σ) (d : Defaults) (q : Request) (t : Planning σ) (type : TypeLike) (s : σ) : Prop
  | contributor {earlier later : List TypeLike} {refs : List SymbolRef} :
    Text.isFreeName q.name = true → q.base :: q.mixins = earlier ++ type :: later →
      (earlier.mapM p.resolve).runFrom t.provider = (.ok refs, s) → Asks p d q t type s
  | ordered {before after : Entries CombinatorEntry} {member : String} {f : Callee} {earlier later : List TypeLike}
    {b : Blueprint} {u : Planning σ} {refs : List SymbolRef} :
    q.combinators = before ++ (member, .ordered f (earlier ++ type :: later)) :: after →
      (build p d false (q.upTo before)).runFrom t = (.ok b, u) →
        (earlier.mapM p.resolve).runFrom u.provider = (.ok refs, s) → Asks p d q t type s

variable {σ : Type} {p : Provider σ} {d : Defaults} {strict : Bool} {q : Request} {t t' : Planning σ}

/-- After the combinators are read, a plan asks the provider nothing. -/
theorem provider_of_planContext {x : Mix} {members : MemberMap} {c : Context}
    (h : (planContext p d strict q x members).runFrom t = (.ok c, t')) :
    ∃ specs, (CombinatorSpec.parseAll p x.participants q.combinators).runFrom t.provider = (.ok specs, t'.provider) := by
  obtain ⟨parsed, u, hparsed, h⟩ := Act.bind_eq_ok.1 h
  obtain ⟨specs, u', hknown, h⟩ := Act.bind_eq_ok.1 h
  obtain ⟨beforeNames, v, hv, h⟩ := Act.bind_eq_ok.1 h
  obtain ⟨before, v', hbefore, h⟩ := Act.bind_eq_ok.1 h
  obtain ⟨afterNames, y, hy, h⟩ := Act.bind_eq_ok.1 h
  obtain ⟨after, y', hafter, h⟩ := Act.bind_eq_ok.1 h
  cases h
  rw [Act.runFrom_ofExcept, Prod.mk.injEq] at hv hy
  obtain ⟨-, rfl⟩ := hv
  obtain ⟨-, rfl⟩ := hy
  have hprovider := Planner.ask_eq_ok hparsed
  rw [← (knownSpecs_eq_ok hknown).2, ← usable_eq_ok hbefore, ← usable_eq_ok hafter] at hprovider
  exact ⟨parsed, hprovider⟩

/-- A build starts with a survey, which goes by the contributors alone, and with the reading of the combinators. -/
theorem runs_of_build {b : Blueprint} (h : (build p d strict q).runFrom t = (.ok b, t')) : ∃ v u specs,
    (survey p q).runFrom t = (.ok v, u) ∧
      (CombinatorSpec.parseAll p v.mix.participants q.combinators).runFrom u.provider = (.ok specs, t'.provider) := by
  obtain ⟨o, w, h⟩ := Act.bind_eq_ok.1 h
  obtain ⟨ho, h⟩ := h
  rw [outline_eq_survey] at ho
  obtain ⟨v, u, hv, ho⟩ := Act.bind_eq_ok.1 ho
  obtain ⟨context, y, hcontext, ho⟩ := Act.bind_eq_ok.1 ho
  obtain ⟨methods, z, hmethods, ho⟩ := Act.bind_eq_ok.1 ho
  cases ho
  obtain ⟨specs, hspecs⟩ := provider_of_planContext hcontext
  obtain ⟨now, w', hnow, h⟩ := Act.bind_eq_ok.1 h
  cases hnow
  obtain ⟨claims, w', hclaims, h⟩ := Act.bind_eq_ok.1 h
  rw [Act.runFrom_ofExcept, Prod.mk.injEq] at hclaims
  obtain ⟨-, rfl⟩ := hclaims
  obtain ⟨_, w', hnote, h⟩ := Act.bind_eq_ok.1 h
  cases hnote
  cases h
  rw [← (planMethods_eq hmethods).2] at hspecs
  exact ⟨v, u, specs, hv, hspecs⟩

theorem build_of_survey_error {e : Failure} {u : Planning σ} (h : (survey p q).runFrom t = (.error e, u)) :
    (build p d strict q).runFrom t = (.error e, u) := by
  refine build_of_outline_error ?_
  rw [outline_eq_survey]
  exact Act.bind_of_error h _

/-- A contributor that cannot be resolved ends the build. -/
theorem build_of_unresolved {e : Failure} {s : σ} (hname : Text.isFreeName q.name = true)
    (h : ((q.base :: q.mixins).mapM p.resolve).runFrom t.provider = (.error e, s)) :
    (build p d strict q).runFrom t = (.error e, { t with provider := s }) := by
  have hmix : (resolveMix p q).runFrom t = (.error e, { t with provider := s }) := by
    rw [List.mapM_cons] at h
    cases hbase : (p.resolve q.base).runFrom t.provider with
    | mk outcome u =>
      have hask : (Planner.ask (p.resolve q.base)).runFrom t = (outcome, { t with provider := u }) := by
        rw [Planner.runFrom_ask, hbase]
      cases outcome with
      | error e' =>
        rw [Act.bind_of_error hbase] at h
        cases h
        exact Act.bind_of_error hask _
      | ok base =>
        rw [Act.bind_of_ok hbase] at h
        have hmixins : (q.mixins.mapM p.resolve).runFrom u = (.error e, s) := by
          cases hrest : (q.mixins.mapM p.resolve).runFrom u with
          | mk outcome v =>
            cases outcome with
            | error e' => exact (Act.bind_of_error hrest _).symm.trans h
            | ok refs =>
              rw [Act.bind_of_ok hrest] at h
              cases h
        refine (Act.bind_of_ok hask _).trans (Act.bind_of_error ?_ _)
        rw [Planner.mapM_ask, Planner.runFrom_ask]
        dsimp only
        rw [hmixins]
  refine build_of_survey_error ?_
  unfold survey
  rw [hname, if_neg (by decide)]
  exact Act.bind_of_error hmix _

/-- A build fails as a question does that comes up in it. -/
theorem build_of_asked {type : TypeLike} {s s' : σ} {e : Failure} (hasks : Asks p d q t type s)
    (hfails : (p.resolve type).runFrom s = (.error e, s')) : ∃ t', (build p d strict q).runFrom t = (.error e, t') := by
  cases hasks with
  | contributor hname hsplit hresolved =>
    exact ⟨_, build_of_unresolved hname (hsplit ▸ Act.mapM_of_error hresolved hfails _)⟩
  | ordered hsplit hbuild hresolved =>
    obtain ⟨v, u, specs, hsurvey, hread⟩ := runs_of_build hbuild
    have hsurvey : (survey p q).runFrom t = (.ok v, u) := hsurvey
    have hparse : (CombinatorSpec.parseAll p v.mix.participants q.combinators).runFrom u.provider = (.error e, s') := by
      rw [hsplit]
      exact CombinatorSpec.parseAll_of_error hread (Act.mapM_of_error hresolved hfails _) _
    refine ⟨{ u with provider := s' }, build_of_outline_error ?_⟩
    rw [outline_eq_survey, Act.bind_of_ok hsurvey]
    refine Act.bind_of_error (Act.bind_of_error ?_ _) _
    rw [Planner.runFrom_ask, hparse]

theorem Asks.mem_types {type : TypeLike} {s : σ} (h : Asks p d q t type s) : type ∈ q.types := by
  cases h with
  | contributor _ hsplit _ => exact List.mem_append_left _ (by rw [hsplit]; simp)
  | ordered hsplit _ _ =>
    exact List.mem_append_right _ (List.mem_flatMap.2 ⟨_, hsplit ▸ List.mem_append_right _ List.mem_cons_self, by
      simp [CombinatorEntry.types]⟩)

section Supplies

variable {Inv : σ → Prop} {Known : SymbolRef → σ → Prop} {kind : Failure → Prop} (supplies : p.Supplies kind Inv Known)
  (good : Inv t.provider)

include supplies good

/-- Where the contributors are surveyed and some of the combinators read, so much of the request can be planned. -/
theorem build_upTo {before : Entries CombinatorEntry} {v : Survey} {u : Planning σ} {specs : Entries CombinatorSpec} {s : σ}
    (hsurvey : (survey p q).runFrom t = (.ok v, u))
    (hread : (CombinatorSpec.parseAll p v.mix.participants before).runFrom u.provider = (.ok specs, s)) :
    ∃ b u', (build p d false (q.upTo before)).runFrom t = (.ok b, u') ∧ u'.provider = s := by
  have told : false = true → ∀ cause : Unknown, (fun _ => False) (Failure.refusal (.unknown cause)) := fun h => nomatch h
  have hcontext : FailsWith (fun _ => False) (planContext p d false (q.upTo before) v.mix v.members) u := by
    refine failsWith_planContext told (fun e s' h => ?_) fun c hc cause h => ?_
    · rw [show (q.upTo before).combinators = before from rfl, hread] at h
      cases h
    · simp only [Request.upTo, List.mem_cons, List.not_mem_nil, or_false, or_self] at hc
      subst hc
      cases h
  obtain ⟨context, w, hcontext⟩ := Act.exists_ok_of_failsWith hcontext
  obtain ⟨methods, x, hmethods⟩ := Act.exists_ok_of_failsWith (failsWith_planMethods told context v.members w)
  obtain ⟨specs', hspecs⟩ := provider_of_planContext hcontext
  rw [show (q.upTo before).combinators = before from rfl, hread] at hspecs
  cases hspecs
  have houtline : (outline p d false (q.upTo before)).runFrom t = (.ok
      { mix := v.mix, header := v.header, extra := v.extra, fields := v.fields, context, methods }, x) := by
    rw [outline_eq_survey]
    exact Act.bind_eq_ok.2 ⟨v, u, hsurvey, Act.bind_eq_ok.2 ⟨context, w, hcontext,
      Act.bind_eq_ok.2 ⟨methods, x, hmethods, rfl⟩⟩⟩
  obtain ⟨claims, hclaims⟩ := claimsOf_eq_ok (s := x.provider) (outline_eq_ok supplies.keeps good houtline)
  have hbuild := build_of_outline houtline
  rw [hclaims] at hbuild
  exact ⟨_, _, hbuild, (planMethods_eq hmethods).2⟩

/-- A build fails in a way that is not this library's own exactly where the provider does, asked to resolve a class. -/
theorem failed_iff (hkind : ∀ e, kind e → e.isOwn = true) {e : Failure} (he : e.isOwn = false) :
    (∃ t', (build p d strict q).runFrom t = (.error e, t')) ↔
      ∃ type s s', Asks p d q t type s ∧ (p.resolve type).runFrom s = (.error e, s') := by
  constructor
  · rintro ⟨t', hrun⟩
    -- Every failure is of this library's own, or comes of a question.
    let fromAsked : Failure → Prop := fun e =>
      e.isOwn = true ∨ ∃ type s s', Asks p d q t type s ∧ (p.resolve type).runFrom s = (.error e, s')
    have own : ∀ cause, fromAsked (.refusal cause) := fun _ => Or.inl rfl
    have hbuild : FailsWith fromAsked (build p d strict q) t := by
      by_cases hname : Text.isFreeName q.name = true
      swap
      · intro e t' h
        rw [build_of_outline_error (e := .refusal (.badClassName q.name)) (u := t)] at h
        · cases h
          exact own _
        · rw [outline, if_pos (by simpa using hname)]
          rfl
      refine failsWith_build (supplies.mono fun e h => Or.inl (hkind e h)) own good ?_ fun v u hsurvey => ?_
      · refine failsWith_resolveMix own fun earlier type later refs s hsplit hresolved e s' hfails => ?_
        exact Or.inr ⟨type, s, s', .contributor hname hsplit hresolved, hfails⟩
      · refine CombinatorSpec.failsWith_parseAll own fun before member f order after specs s hsplit hread => ?_
        refine FailsWith.mapM fun earlier type later refs s' horder hresolved e s'' hfails => ?_
        obtain ⟨b, u', hbuild, rfl⟩ := build_upTo (d := d) supplies good hsurvey hread
        exact Or.inr ⟨type, s', s'', .ordered (horder ▸ hsplit) hbuild hresolved, hfails⟩
    exact (hbuild e t' hrun).resolve_left (by simp [he])
  · rintro ⟨type, s, s', hasks, hfails⟩
    exact build_of_asked hasks hfails

end Supplies

end Blueprint

/-! ## Given manifests -/

/-- Given manifests are had or refused. -/
theorem Provider.supplies_ofManifests (ms : List Manifest) :
    (ofManifests ms).Supplies (fun e => e.isOwn = true) (fun _ => True) fun _ _ => True where
  keeps := keeps_trivial _
  stays _ := keeps_trivial _
  resolved _ := trivial
  listed _ _ _ _ := trivial
  served {r s} _ := by
    unfold ofManifests
    dsimp only
    split
    · exact failsWith_pure _ s
    · exact @failsWith_refuse _ _ (fun e => e.isOwn = true) _ rfl s

theorem Provider.failsWith_resolve_ofManifests (ms : List Manifest) (type : TypeLike) (s : Unit) :
    FailsWith (fun e => e.isOwn = true) ((ofManifests ms).resolve type) s := by
  have own : ∀ cause : Refusal, (Failure.refusal cause).isOwn = true := fun _ => rfl
  have href : FailsWith (fun e => e.isOwn = true) (refOf type) s := by
    cases type with
    | text path => exact failsWith_parse own path s
    | ref r => exact failsWith_pure r s
    | live id r => exact failsWith_pure r s
    | other shown => exact failsWith_refuse (own _) s
  refine href.bind fun r u _ => ?_
  split
  · exact failsWith_pure r u
  · exact failsWith_refuse (own _) u

/-- What fails of a plan by given manifests is refused. -/
theorem Blueprint.isOwn_of_build_ofManifests {ms : List Manifest} {d : Defaults} {strict : Bool} {q : Request}
    {t t' : Planning Unit} {e : Failure} (h : (build (Provider.ofManifests ms) d strict q).runFrom t = (.error e, t')) :
    e.isOwn = true := by
  by_contra he
  rw [Bool.not_eq_true] at he
  obtain ⟨type, s, s', -, hfails⟩ := (failed_iff (Provider.supplies_ofManifests ms) trivial (fun _ h => h) he).1 ⟨t', h⟩
  exact absurd (Provider.failsWith_resolve_ofManifests ms type s e s' hfails) (by simp [he])

/-! ## Live classes -/

/-- A text that writes a reference into a module whose name begins with a dot. -/
def SymbolRef.WritesRelative (text : String) (r : SymbolRef) : Prop :=
  Writes text r ∧ r.importable = true ∧ r.home.startsWith "." = true

theorem World.importSymbol_eq_error {w : World} {r : SymbolRef} {e : Failure} (hhome : r.home ≠ "") (he : e.isOwn = false) :
    w.importSymbol r = .error e ↔ e = .fault .type ∧ r.importable = true ∧ r.home.startsWith "." = true := by
  unfold importSymbol
  rw [if_neg (c := r.home.isEmpty = true) (by simpa using hhome)]
  cases himportable : r.importable with
  | false =>
    refine iff_of_false (fun h => ?_) (fun h => nomatch h.2.1)
    cases h
    cases he
  | true =>
    rw [if_neg (by decide)]
    by_cases hdot : r.home.startsWith "." = true
    · rw [if_pos hdot]
      exact ⟨fun h => by cases h; exact ⟨rfl, rfl, hdot⟩, fun h => by rw [h.1]⟩
    · rw [if_neg hdot]
      refine iff_of_false (fun h => ?_) fun h => hdot h.2.2
      obtain ⟨fault, -, rfl⟩ := Outcome.mapError_eq_error.1 h
      cases he

namespace Roster

variable {w : World}

theorem supplies_live (w : World) (kind : Failure → Prop) :
    (Provider.live w).Supplies kind Reachable fun r c => r.path ∈ c.classes.keys where
  keeps := ⟨fun type _ h => .resolve w type h, fun r _ h => .manifest w r h, fun _ _ => trivial⟩
  stays _ := ⟨fun type c h => (resolve_extends c type c (Extends.refl c)).mem_keys h,
    fun r' c h => (manifest_extends c r' c (Extends.refl c)).mem_keys h, fun _ _ => trivial⟩
  resolved h := mem_keys_of_resolve h
  listed hinv h := (claimed_of_manifest hinv.sound.listed h).2.2
  served h _ _ hrun := absurd h (manifest_eq_error hrun).2

/-- Not to find a class, other than by a refusal, is to import it from a module whose name begins with a dot. -/
theorem find_failed_iff {r : SymbolRef} (hhome : r.home ≠ "") (c : Roster) {e : Failure} (he : e.isOwn = false) :
    (∃ c', (find w r).runFrom c = (.error e, c')) ↔
      e = .fault .type ∧ r.importable = true ∧ r.home.startsWith "." = true ∧ r.path ∉ c.classes.keys := by
  unfold find
  rw [Act.runFrom_bind, Act.runFrom_get]
  dsimp only
  cases hfound : c.classes.get? r.path with
  | some id => exact iff_of_false (fun ⟨_, h⟩ => nomatch h) fun h => h.2.2.2 (Entries.mem_keys_of_get? hfound)
  | none =>
    have hnew : r.path ∉ c.classes.keys := (Entries.get?_eq_none_iff _ _).1 hfound
    dsimp only
    rw [Act.runFrom_bind, Act.runFrom_ofExcept]
    cases himport : w.importSymbol r with
    | error e' =>
      have hfails := World.importSymbol_eq_error (w := w) hhome he
      rw [himport, Except.error.injEq] at hfails
      constructor
      · rintro ⟨c', h⟩
        cases h
        obtain ⟨rfl, himportable, hdot⟩ := hfails.1 rfl
        exact ⟨rfl, himportable, hdot, hnew⟩
      · rintro ⟨rfl, himportable, hdot, -⟩
        exact ⟨c, by rw [hfails.2 ⟨rfl, himportable, hdot⟩]⟩
    | ok v =>
      refine iff_of_false (fun ⟨c', h⟩ => ?_) fun h => ?_
      · cases v <;> cases h <;> cases he
      · rw [(World.importSymbol_eq_error hhome he).2 ⟨h.1, h.2.1, h.2.2.1⟩] at himport
        cases himport

/-- A text is resolved, or refused, or it leads into a module whose name begins with a dot. -/
theorem resolve_failed_iff {text : String} {c : Roster} {e : Failure} (he : e.isOwn = false) :
    (∃ c', (resolve w (.text text)).runFrom c = (.error e, c')) ↔
      e = .fault .type ∧ ∃ r, SymbolRef.WritesRelative text r ∧ r.path ∉ c.classes.keys := by
  unfold resolve
  dsimp only
  cases hparse : SymbolRef.parse? text with
  | none =>
    refine iff_of_false (fun ⟨c', h⟩ => ?_) ?_
    · rw [Provider.parse, hparse] at h
      cases h
      cases he
    · rintro ⟨-, r, ⟨hwrites, -⟩, -⟩
      rw [SymbolRef.parse?_eq_some_iff.2 hwrites] at hparse
      cases hparse
  | some r =>
    have hwrites := SymbolRef.parse?_eq_some_iff.1 hparse
    have hrun : (Provider.parse text : Act Roster SymbolRef).runFrom c = (.ok r, c) := Provider.parse_eq_ok_iff.2 hwrites
    rw [Act.bind_of_ok hrun]
    simp only [Act.bind_pure_eq_error]
    rw [find_failed_iff hwrites.home_ne c he]
    constructor
    · rintro ⟨rfl, himportable, hdot, hnew⟩
      exact ⟨rfl, r, ⟨hwrites, himportable, hdot⟩, hnew⟩
    · rintro ⟨rfl, r', ⟨hwrites', himportable, hdot⟩, hnew⟩
      obtain rfl : r' = r := Option.some.inj ((SymbolRef.parse?_eq_some_iff.2 hwrites').symm.trans hparse)
      exact ⟨rfl, himportable, hdot, hnew⟩

end Roster

/-- A build of live classes that are given by texts fails exactly at a text that leads into a module whose name begins with a dot. -/
theorem Blueprint.failed_live_iff {w : World} {d : Defaults} {strict : Bool} {q : Request} {t : Planning Roster}
    (good : t.provider.Reachable) (texts : ∀ type ∈ q.types, ∃ text, type = .text text) {e : Failure} (he : e.isOwn = false) :
    (∃ t', (build (Provider.live w) d strict q).runFrom t = (.error e, t')) ↔ e = .fault .type ∧
      ∃ text r c, Asks (Provider.live w) d q t (.text text) c ∧ SymbolRef.WritesRelative text r ∧ r.path ∉ c.classes.keys := by
  rw [failed_iff (Roster.supplies_live w fun e => e.isOwn = true) good (fun _ h => h) he]
  constructor
  · rintro ⟨type, c, c', hasks, hfails⟩
    obtain ⟨text, rfl⟩ := texts type hasks.mem_types
    obtain ⟨rfl, r, hrelative, hnew⟩ := (Roster.resolve_failed_iff he).1 ⟨c', hfails⟩
    exact ⟨rfl, text, r, c, hasks, hrelative, hnew⟩
  · rintro ⟨rfl, text, r, c, hasks, hrelative, hnew⟩
    obtain ⟨c', hfails⟩ := (Roster.resolve_failed_iff (w := w) he).2 ⟨rfl, r, hrelative, hnew⟩
    exact ⟨_, c, c', hasks, hfails⟩

end Amalgam
