import Amalgam.Proofs.Blueprint.Claims
import Amalgam.Proofs.Blueprint.Registration
import Amalgam.Proofs.Source.Forwarding
import Amalgam.Session
import Amalgam.World.Fresh

/-!
# What the names of a composite are bound to

Before its code runs, each symbol of a composite is bound under its alias to the live object claimed for its path, or to
what is imported by its reference (`Session.get?_seed`). For a contributor this is the class that the caller gave. For a
combination function it is the object that holds the path of the function, and where several claim that path it need not
be the one that the member's own entry gives (`Session.seed_denotes_iff`).
-/

namespace Amalgam

/-- The object that the entry of a member gives to join its results, by import if it is no live one; without an entry, the
default of a hook. -/
def Request.combination? (q : Request) (w : World) (d : Blueprint.Defaults) (member : String) : Option Value :=
  match (Entries.ofList q.combinators).get? member with
  | some entry =>
    match entry.live? with
    | some handle => some (Session.valueOf handle)
    | none => entry.ref?.bind fun r => (w.importSymbol r).toOption
  | none => (d.specOf member).binding.map Session.valueOf

/-- The live function that the entry of a member gives. -/
def Request.live? (q : Request) (member : String) : Option Handle :=
  ((Entries.ofList q.combinators).get? member).bind CombinatorEntry.live?

/--
The object that holds the path of a combination function: a class of the mix, or one listed next to its base; or else the
live function of the spec read last under that path; or else what generated code relies on; or else what is imported.
-/
inductive Blueprint.Outline.Holds (w : World) (d : Blueprint.Defaults) (o : Blueprint.Outline) (c : Roster) (f : String) :
    Value → Prop where
  | contributor {id : Nat} : f ∈ (o.mix.participants ++ o.extra).map SymbolRef.path → c.classes.get? f = some id →
    Holds w d o c f (.cls id)
  | live {s : CombinatorSpec} {handle : Handle} : f ∉ (o.mix.participants ++ o.extra).map SymbolRef.path →
    (Blueprint.specsByPath o.context.specs).get? f = some s → s.binding = some handle →
    Holds w d o c f (Session.valueOf handle)
  | support {s : CombinatorSpec} {r : SymbolRef} {handle : Handle} :
    f ∉ (o.mix.participants ++ o.extra).map SymbolRef.path →
    (Blueprint.specsByPath o.context.specs).get? f = some s → s.binding = none →
    (r, some handle) ∈ Blueprint.supportClaims d o.methods → r.path = f → Holds w d o c f (Session.valueOf handle)
  | imported {s : CombinatorSpec} {v : Value} : f ∉ (o.mix.participants ++ o.extra).map SymbolRef.path →
    (Blueprint.specsByPath o.context.specs).get? f = some s → s.binding = none →
    (∀ claim ∈ Blueprint.supportClaims d o.methods, claim.1.path ≠ f) → w.importSymbol s.function = .ok v →
    Holds w d o c f v

namespace Blueprint

variable {d : Defaults}

theorem mem_supportClaims {methods : List MethodDef} {c : SymbolRef × Option Handle} (h : c ∈ supportClaims d methods) :
    c = (.shortCircuit, some d.shortCircuit) ∨ c = (.replace, some d.replace) ∨
      c = (.parameterDefault, some d.parameterDefault) := by
  unfold supportClaims at h
  simp only [List.mem_append] at h
  rcases h with (h | h) | h <;> split at h <;> simp_all

/-- Generated code relies on live objects, each under a path of its own. -/
theorem eq_of_supportClaims {methods : List MethodDef} {c c' : SymbolRef × Option Handle}
    (h : c ∈ supportClaims d methods) (h' : c' ∈ supportClaims d methods) (hpath : c.1.path = c'.1.path) : c = c' := by
  have hapart : SymbolRef.shortCircuit.path ≠ SymbolRef.replace.path ∧
      SymbolRef.shortCircuit.path ≠ SymbolRef.parameterDefault.path ∧
      SymbolRef.replace.path ≠ SymbolRef.parameterDefault.path := by decide
  obtain ⟨h₁, h₂, h₃⟩ := hapart
  rcases mem_supportClaims h with rfl | rfl | rfl <;> rcases mem_supportClaims h' with rfl | rfl | rfl <;>
    first | rfl | exact absurd hpath ‹_› | exact absurd hpath.symm ‹_›

theorem exists_of_supportClaims {methods : List MethodDef} {c : SymbolRef × Option Handle}
    (h : c ∈ supportClaims d methods) : ∃ handle, c.2 = some handle := by
  rcases mem_supportClaims h with rfl | rfl | rfl <;> exact ⟨_, rfl⟩

/-- No path is held by two objects. -/
theorem Outline.Holds.unique {w : World} {o : Outline} {c : Roster} {f : String} {v v' : Value}
    (h : o.Holds w d c f v) (h' : o.Holds w d c f v') : v = v' := by
  cases h with
  | contributor hmem hget =>
    cases h' with
    | contributor hmem' hget' =>
      rw [hget] at hget'
      cases hget'
      rfl
    | _ => exact absurd hmem ‹_›
  | live hfree hs hb =>
    cases h' with
    | contributor hmem' _ => exact absurd hmem' hfree
    | live _ hs' hb' =>
      rw [hs] at hs'
      cases hs'
      rw [hb] at hb'
      cases hb'
      rfl
    | _ => simp_all
  | support hfree hs hb hmem hpath =>
    cases h' with
    | contributor hmem' _ => exact absurd hmem' hfree
    | live _ hs' hb' => simp_all
    | support _ _ _ hmem' hpath' =>
      have := eq_of_supportClaims hmem hmem' (hpath.trans hpath'.symm)
      cases this
      rfl
    | imported _ _ _ hnone _ => exact absurd hpath (hnone _ hmem)
  | imported hfree hs hb hnone himport =>
    cases h' with
    | contributor hmem' _ => exact absurd hmem' hfree
    | live _ hs' hb' => simp_all
    | support _ _ _ hmem' hpath' => exact absurd hpath' (hnone _ hmem')
    | imported _ hs' _ _ himport' =>
      rw [hs] at hs'
      cases hs'
      rw [himport] at himport'
      cases himport'
      rfl

end Blueprint

namespace Session

open Blueprint

variable {w : World} {b : Blueprint} {names : Entries Value}

/-! ## One symbol -/

/-- What a symbol stands for: the live object known of, or what its reference imports. -/
def valueAt (w : World) (b : Blueprint) (path : String) (r : SymbolRef) : Except Failure Value :=
  match b.bindings.get? path with
  | some handle => .ok (valueOf handle)
  | none => w.importSymbol r

theorem seedFrom_cons (done : Entries Value) (path : String) (r : SymbolRef) (rest : List (String × SymbolRef)) :
    seedFrom w b done ((path, r) :: rest) = (do
      let v ← valueAt w b path r
      let name ← Source.aliasOf b path
      seedFrom w b (done.put name v) rest) := by
  rw [seedFrom]
  unfold valueAt
  cases b.bindings.get? path <;> rfl

theorem seedFrom_eq_ok {done : Entries Value} {symbols : List (String × SymbolRef)}
    (h : seedFrom w b done symbols = .ok names) (distinct : (symbols.map Prod.fst).Nodup)
    (injective : ∀ {path other name : String}, b.aliases.get? path = some name → b.aliases.get? other = some name →
      path = other) :
    (∀ e ∈ symbols, ∃ name v, b.aliases.get? e.1 = some name ∧ valueAt w b e.1 e.2 = .ok v ∧
      names.get? name = some v) ∧
      ∀ name, (∀ e ∈ symbols, b.aliases.get? e.1 ≠ some name) → names.get? name = done.get? name := by
  induction symbols generalizing done with
  | nil =>
    cases h
    exact ⟨fun e he => absurd he List.not_mem_nil, fun _ _ => rfl⟩
  | cons e rest ih =>
    obtain ⟨path, r⟩ := e
    rw [List.map_cons, List.nodup_cons] at distinct
    rw [seedFrom_cons] at h
    obtain ⟨v, hv, h⟩ := Outcome.bind_eq_ok.1 h
    obtain ⟨name, hname, h⟩ := Outcome.bind_eq_ok.1 h
    rw [Source.aliasOf_eq_ok] at hname
    obtain ⟨hrest, hother⟩ := ih h distinct.2
    have hfresh : ∀ e ∈ rest, b.aliases.get? e.1 ≠ some name := fun e he hsame =>
      distinct.1 (by rw [injective hname hsame]; exact List.mem_map.2 ⟨e, he, rfl⟩)
    refine ⟨fun e he => ?_, fun other hother' => ?_⟩
    · rcases List.mem_cons.1 he with rfl | he
      · refine ⟨name, v, hname, hv, ?_⟩
        rw [hother name hfresh, Entries.get?_put_self]
      · exact hrest e he
    · rw [hother other fun e he => hother' e (List.mem_cons_of_mem _ he), Entries.get?_put_of_ne]
      rintro rfl
      exact hother' _ List.mem_cons_self hname

/-- Each symbol of a blueprint that is built is bound to what it stands for. -/
theorem get?_seed {o : Outline} {claims : Claims} (h : seed w (ofClaims o claims) = .ok names) {path : String}
    {r : SymbolRef} (hr : (symbolsOf claims).get? path = some r) :
    ∃ name v, (ofClaims o claims).aliases.get? path = some name ∧ valueAt w (ofClaims o claims) path r = .ok v ∧
      names.get? name = some v :=
  (seedFrom_eq_ok h (nodup_keys_symbolsOf claims) Alias.assign_injective).1 _ (Entries.mem_of_get? hr)

/-! ## Contributors and combination functions -/

variable {d : Defaults} {o : Outline} {c : Roster} {claims : Claims}
  (hclaims : claimsOf (Provider.live w) d o c = .ok claims) (hseed : seed w (ofClaims o claims) = .ok names)

include hclaims

/-- Whoever claims a path as a contributor is first to do so. -/
theorem claims_of_mem {f : String} (h : f ∈ (o.mix.participants ++ o.extra).map SymbolRef.path) {id : Nat}
    (hget : c.classes.get? f = some id) :
    (∃ r, (symbolsOf claims).get? f = some r) ∧ (bindingsOf claims).get? f = some (.cls id) := by
  obtain ⟨joined, -, h'⟩ := Outcome.bind_eq_ok.1 hclaims
  cases h'
  obtain ⟨r, hr, rfl⟩ := List.mem_map.1 h
  have hown : ∀ x ∈ (o.mix.participants ++ o.extra).map (fun r => (r, (Provider.live w).binding r c)),
      x.1.path = r.path → x.2 = some (.cls id) := by
    intro x hx hpath
    obtain ⟨r', -, rfl⟩ := List.mem_map.1 hx
    show (c.classes.get? r'.path).map Handle.cls = _
    rw [show r'.path = r.path from hpath, hget]
    rfl
  have hex : ∃ x ∈ (o.mix.participants ++ o.extra).map (fun r => (r, (Provider.live w).binding r c)),
      x.1.path = r.path := ⟨_, List.mem_map_of_mem hr, rfl⟩
  refine ⟨Option.isSome_iff_exists.1 ?_, ?_⟩
  · obtain ⟨x, hx, hpath⟩ := hex
    rw [get?_symbolsOf, Option.isSome_map, List.find?_isSome]
    exact ⟨x, List.mem_append_left _ (List.mem_append_left _ hx), by simpa using hpath⟩
  · rw [get?_bindingsOf, List.append_assoc, List.findSome?_append, findSome?_of_forall hown hex]
    rfl

/-- A path that no contributor claims has the reference and the live function of the spec read last under it. -/
theorem claims_of_not_mem {f : String} (h : f ∉ (o.mix.participants ++ o.extra).map SymbolRef.path) {m : MethodDef}
    (hm : m ∈ o.methods) {targets : List MemberCall} (hcore : m.core = .combine f targets) :
    ∃ s, (specsByPath o.context.specs).get? f = some s ∧ (symbolsOf claims).get? f = some s.function ∧
      (bindingsOf claims).get? f = s.binding.or
        ((supportClaims d o.methods).findSome? fun c => if c.1.path = f then c.2 else none) := by
  obtain ⟨joined, hjoined, h'⟩ := Outcome.bind_eq_ok.1 hclaims
  cases h'
  obtain ⟨s, hs, hex, hall⟩ := joined_claims hjoined hm hcore
  have hnone : ∀ x ∈ (o.mix.participants ++ o.extra).map (fun r => (r, (Provider.live w).binding r c)), x.1.path ≠ f := by
    intro x hx hpath
    obtain ⟨r, hr, rfl⟩ := List.mem_map.1 hx
    exact h (List.mem_map.2 ⟨r, hr, hpath⟩)
  refine ⟨s, hs, ?_, ?_⟩
  · rw [get?_symbolsOf, List.append_assoc, List.find?_append,
      List.find?_eq_none.2 fun x hx => by simpa using hnone x hx, Option.none_or, List.find?_append]
    cases hfind : joined.find? fun c => decide (c.1.path = f) with
    | none =>
      obtain ⟨x, hx, hpath⟩ := hex
      exact absurd hpath (by simpa using List.find?_eq_none.1 hfind x hx)
    | some x =>
      have hpath : x.1.path = f := by simpa using List.find?_some hfind
      rw [hall x (List.mem_of_find?_eq_some hfind) hpath]
      rfl
  · rw [get?_bindingsOf, List.append_assoc, List.findSome?_append, List.findSome?_append,
      List.findSome?_eq_none_iff.2 fun x hx => if_neg (hnone x hx), Option.none_or,
      findSome?_of_forall (fun x hx hpath => by rw [hall x hx hpath]) hex]

include hseed

/-- The name of a contributor is bound to its class. -/
theorem get?_seed_contributor {r : SymbolRef} (hr : r ∈ o.mix.participants) {id : Nat}
    (hget : c.classes.get? r.path = some id) :
    ∃ name, (ofClaims o claims).aliases.get? r.path = some name ∧ names.get? name = some (.cls id) := by
  obtain ⟨⟨r', hr'⟩, hbinding⟩ := claims_of_mem hclaims (List.mem_map_of_mem (List.mem_append_left _ hr)) hget
  obtain ⟨name, v, hname, hv, hget⟩ := get?_seed hseed hr'
  have hbinding : (ofClaims o claims).bindings.get? r.path = some (.cls id) := hbinding
  simp only [valueAt, hbinding] at hv
  cases hv
  exact ⟨name, hname, hget⟩

/-- The name of a combination function is bound to the object that holds its path. -/
theorem get?_seed_combination (listed : ∀ r ∈ o.mix.participants ++ o.extra, r.path ∈ c.classes.keys) {m : MethodDef}
    (hm : m ∈ o.methods) {f : String} {targets : List MemberCall} (hcore : m.core = .combine f targets) :
    ∃ name v, (ofClaims o claims).aliases.get? f = some name ∧ names.get? name = some v ∧ o.Holds w d c f v := by
  by_cases h : f ∈ (o.mix.participants ++ o.extra).map SymbolRef.path
  · cases hid : c.classes.get? f with
    | none =>
      obtain ⟨r, hr, rfl⟩ := List.mem_map.1 h
      exact absurd (listed r hr) ((Entries.get?_eq_none_iff _ _).1 hid)
    | some id =>
      obtain ⟨⟨r, hr⟩, hbinding⟩ := claims_of_mem hclaims h hid
      obtain ⟨name, v, hname, hv, hget⟩ := get?_seed hseed hr
      have hbinding : (ofClaims o claims).bindings.get? f = some (.cls id) := hbinding
      simp only [valueAt, hbinding] at hv
      cases hv
      exact ⟨name, _, hname, hget, .contributor h hid⟩
  · obtain ⟨s, hs, hsymbol, hbinding⟩ := claims_of_not_mem hclaims h hm hcore
    obtain ⟨name, v, hname, hv, hget⟩ := get?_seed hseed hsymbol
    have hbinding : (ofClaims o claims).bindings.get? f = _ := hbinding
    refine ⟨name, v, hname, hget, ?_⟩
    cases hb : s.binding with
    | some handle =>
      rw [hb] at hbinding
      simp only [valueAt, hbinding, Option.some_or] at hv
      cases hv
      exact .live h hs hb
    | none =>
      rw [hb, Option.none_or] at hbinding
      by_cases hsupport : ∃ claim ∈ supportClaims d o.methods, claim.1.path = f
      · obtain ⟨claim, hclaim, hpath⟩ := hsupport
        obtain ⟨handle, hhandle⟩ := exists_of_supportClaims hclaim
        have hsame : ∀ x ∈ supportClaims d o.methods, x.1.path = f → x.2 = some handle := by
          intro x hx hxf
          rw [eq_of_supportClaims hx hclaim (hxf.trans hpath.symm), hhandle]
        rw [findSome?_of_forall hsame ⟨claim, hclaim, hpath⟩] at hbinding
        simp only [valueAt, hbinding] at hv
        cases hv
        exact .support h hs hb (hhandle ▸ hclaim) hpath
      · have hnone : ∀ x ∈ supportClaims d o.methods, x.1.path ≠ f := fun x hx hxf => hsupport ⟨x, hx, hxf⟩
        rw [List.findSome?_eq_none_iff.2 fun x hx => if_neg (hnone x hx)] at hbinding
        simp only [valueAt, hbinding] at hv
        exact .imported h hs hb hnone hv

end Session

/-- A member whose spec is registered has that spec's object. -/
theorem Request.Registers.live {q : Request} {d : Blueprint.Defaults} {member : String} {s : CombinatorSpec} {handle : Handle}
    (h : q.Registers d member s) (hlive : q.live? member = some handle) :
    s.binding = some handle ∧ (Entries.ofList q.combinators).get? member ≠ none := by
  unfold Request.live? at hlive
  unfold Request.Registers at h
  cases hentry : (Entries.ofList q.combinators).get? member with
  | none =>
    rw [hentry] at hlive
    cases hlive
  | some entry =>
    rw [hentry] at h hlive
    exact ⟨h.1.trans hlive, fun hnone => nomatch hnone⟩

/--
Every composite of live classes: the names of its contributors are bound to the classes that the caller gave, and no two
live functions that the caller gave share a name. A method that joins results is given the object of its own entry exactly
if that is the object that holds the path of its function.
-/
theorem Session.seed_denotes_iff {w : World} {d : Blueprint.Defaults} {strict : Bool} {q : Request} {b : Blueprint}
    {t' : Planning Roster} {names : Entries Value}
    (hb : (Blueprint.build (Provider.live w) d strict q).runFrom { provider := {} } = (.ok b, t'))
    (hseed : seed w b = .ok names) :
    ∃ o u, (Blueprint.outline (Provider.live w) d strict q).runFrom { provider := {} } = (.ok o, u) ∧
      List.Forall₂ (fun (type : TypeLike) path => ∃ id name, type.class? w = some id ∧ b.aliases.get? path = some name ∧
        names.get? name = some (.cls id)) (q.base :: q.mixins) (b.header.base :: b.header.mixins) ∧
      ∀ m ∈ b.methods, ∀ f targets, m.core = .combine f targets →
        (∀ target ∈ targets, target.contributor ∈ b.header.base :: b.header.mixins) ∧
        (∀ m' ∈ b.methods, ∀ targets', m'.core = .combine f targets' → ∀ handle handle', q.live? m.name = some handle →
          q.live? m'.name = some handle' → handle = handle') ∧
        ∃ name, b.aliases.get? f = some name ∧ (names.get? name = q.combination? w d m.name ↔
          ∃ v, q.combination? w d m.name = some v ∧ o.Holds w d u.provider f v) := by
  obtain ⟨o, u, claims, ho, hclaims, rfl⟩ := Blueprint.build_eq_ok hb
  have sound := Blueprint.outline_eq_ok (Provider.keeps_trivial _) trivial ho
  obtain ⟨t₁, t₂, hmix, hheader, hkeeps, -, x, x', -, hcontext, -⟩ := Blueprint.stages_of_outline ho
  obtain ⟨read, hseparate, hregistered⟩ := Blueprint.registered_of_planContext hcontext
  -- What the contributors stand for when they are resolved they stand for in the end.
  have hext₁ : t₁.provider.Extends t₂.provider :=
    (Blueprint.planHeader_eq_ok (Provider.keeps_extends w _) (Roster.Extends.refl _) hheader).2.2.2
  have hext₂ : t₂.provider.Extends u.provider := hkeeps (Provider.keeps_extends w _) (Roster.Extends.refl _)
  obtain ⟨hmanifests, hpairs⟩ := Blueprint.pairs_of_resolveMix rfl hmix
  have hpairs := hpairs.imp fun _ _ h => h.mono (hext₁.trans hext₂)
  have hlisted : ∀ r ∈ o.mix.participants ++ o.extra, r.path ∈ u.provider.classes.keys := by
    intro r hr
    rcases List.mem_append.1 hr with hr | hr
    · obtain ⟨type, -, id, -, hget⟩ := Outcome.exists_mem_of_forall₂ hpairs.flip hr
      exact Entries.mem_keys_of_get? hget
    · have fresh : t₁.provider.Listed := fun e he => absurd (hmanifests ▸ he) List.not_mem_nil
      exact hext₂.mem_keys (Blueprint.claimed_of_planHeader fresh hheader r hr)
  have hpaths : (Blueprint.ofClaims o claims).header.base :: (Blueprint.ofClaims o claims).header.mixins =
      o.mix.participants.map SymbolRef.path := Blueprint.paths_of_planHeader hheader
  rw [hpaths]
  refine ⟨o, u, ho, ?_, fun m hm f targets hcore => ⟨fun target htarget => ?_, ?_, ?_⟩⟩
  · rw [List.forall₂_map_right_iff]
    refine ((List.forall₂_and_left _ _).2 ⟨fun _ h => h, hpairs.flip⟩).flip.imp ?_
    rintro type r ⟨hr, id, hclass, hget⟩
    obtain ⟨name, hname, hbound⟩ := get?_seed_contributor hclaims hseed hr hget
    exact ⟨id, name, hclass, hname, hbound⟩
  · obtain ⟨definitions, hdefinitions, hplanned⟩ := sound.methods m hm
    obtain ⟨definition, hdefinition, hpath⟩ := (hplanned.targets target (hcore ▸ htarget)).2
    rw [hpath]
    exact List.mem_map_of_mem (sound.members.source _ hdefinitions _ hdefinition).1
  · intro m' hm' targets' hcore' handle handle' hlive hlive'
    have hspec : ∀ m ∈ o.methods, ∀ targets, m.core = .combine f targets → ∀ handle, q.live? m.name = some handle →
        ∃ s, (m.name, s) ∈ read ∧ f = s.function.path ∧ s.binding = some handle := by
      intro m hm targets hcore handle hlive
      obtain ⟨definitions, hdefinitions, hplanned⟩ := sound.methods m hm
      obtain ⟨s, hs, hf⟩ := hplanned.combinator f targets hcore
      obtain ⟨hregisters, hread⟩ := hregistered m.name (List.mem_map_of_mem hdefinitions) s hs
      obtain ⟨hbinding, hentry⟩ := hregisters.live hlive
      exact ⟨s, hread hentry, hf, hbinding⟩
    obtain ⟨s, hs, hf, hbinding⟩ := hspec m hm targets hcore handle hlive
    obtain ⟨s', hs', hf', hbinding'⟩ := hspec m' hm' targets' hcore' handle' hlive'
    exact hseparate _ hs _ hs' (hf.symm.trans hf') handle handle' hbinding hbinding'
  · obtain ⟨name, v, hname, hget, hholds⟩ := get?_seed_combination hclaims hseed hlisted hm hcore
    refine ⟨name, hname, ?_⟩
    rw [hget]
    constructor
    · exact fun h => ⟨v, h.symm, hholds⟩
    · rintro ⟨v', hv', hholds'⟩
      rw [hv', hholds.unique hholds']

/-- The number of a function. -/
def Value.function? : Value → Option Nat
  | .function id => some id
  | _ => Option.none

theorem Value.eq_function {v : Option Value} {id : Nat} (h : v.bind function? = some id) : v = some (.function id) := by
  cases v with
  | none => cases h
  | some v =>
    cases v <;> cases h
    rfl

/-- The path of the function that joins results. -/
def Core.function? : Core → Option String
  | .combine f _ => some f
  | .call _ => none

theorem Core.eq_combine {core : Core} {f : String} (h : core.function? = some f) : ∃ targets, core = .combine f targets := by
  cases core with
  | combine f' targets => exact ⟨targets, congrArg (Core.combine · targets) (Option.some.inj h)⟩
  | call target => cases h

/-- Two classes with the same members, and two functions of one name, the second of which can be imported. -/
def World.namesakes : World :=
  { fresh with
    classes := fresh.classes ++
      #[{ name := "Cart", qualname := "Cart", home := "shop", order := [absentId + 1, objectId],
          slots := [("total", .routine .ofInstance 9), ("count", .routine .ofInstance 9)] },
        { name := "Rebate", qualname := "Rebate", home := "shop", order := [absentId + 2, objectId],
          slots := [("total", .routine .ofInstance 9), ("count", .routine .ofInstance 9)] }]
    functions := fresh.functions ++
      #[{ name := "total", qualname := "Cart.total", home := "shop", params := [{ name := "self" }], body := .nothing },
        { name := "add", qualname := "add", home := "shop", body := .join "add" .cat },
        { name := "add", qualname := "add", home := "shop", body := .join "add" .count }]
    modules := fresh.modules ++ #[{ name := "shop", names := [("add", .function 11)] }]
    loaded := fresh.loaded.put "shop" fresh.modules.size }

theorem Session.seed_denotes_iff_namesakes :
    ∃ b t' names, (Blueprint.build (Provider.live .namesakes) defaults true
        { name := "Sale", base := .live 7 ⟨"shop", "Cart"⟩, mixins := [.live 8 ⟨"shop", "Rebate"⟩],
          combinators := [("total", .single (.live (.function 10) ⟨"shop", "add"⟩)),
            ("count", .single (.text "shop:add"))] }).runFrom ⟨{}, []⟩ = (.ok b, t') ∧
      seed .namesakes b = .ok names ∧ ∃ (o : Blueprint.Outline) (u : Planning Roster),
        (∃ m ∈ b.methods, m.name = "total" ∧ (∃ targets, m.core = .combine "shop:add" targets) ∧
          ¬o.Holds .namesakes defaults u.provider "shop:add" (.function 10)) ∧
        ∃ m ∈ b.methods, m.name = "count" ∧ (∃ targets, m.core = .combine "shop:add" targets) ∧
          o.Holds .namesakes defaults u.provider "shop:add" (.function 11) := by
  generalize hq : ({ name := "Sale", base := _, mixins := _, combinators := _ } : Request) = q
  generalize hrun : (Blueprint.build (Provider.live .namesakes) defaults true q).runFrom (⟨{}, []⟩ : Planning Roster) = r
  have hmethods : (r.1.toOption.map fun b => b.methods.map fun m => (m.name, m.core.function?)) =
      some [("total", some "shop:add"), ("count", some "shop:add")] := by
    rw [← hrun, ← hq]
    decide +kernel
  have hbound : (r.1.toOption.bind fun b => (seed .namesakes b).toOption.map fun names =>
      ((b.aliases.get? "shop:add").bind names.get?).bind Value.function?) = some (some 11) := by
    rw [← hrun, ← hq]
    decide +kernel
  have hlive : q.combination? .namesakes defaults "total" = some (.function 10) := by
    rw [← hq]
    exact Value.eq_function (by decide +kernel)
  have himported : q.combination? .namesakes defaults "count" = some (.function 11) := by
    rw [← hq]
    exact Value.eq_function (by decide +kernel)
  obtain ⟨outcome, t'⟩ := r
  cases outcome with
  | error e => cases hmethods
  | ok b =>
    obtain ⟨names, hnames, hbound⟩ : ∃ names, (seed .namesakes b).toOption = some names ∧ _ :=
      Option.map_eq_some_iff.1 hbound
    obtain ⟨found, hseed⟩ := Outcome.exists_eq_ok_of_isSome (Option.isSome_of_eq_some hnames)
    rw [hseed] at hnames
    cases hnames
    obtain ⟨o, u, -, -, hall⟩ := seed_denotes_iff hrun hseed
    -- Both methods join their results with what the one name is bound to.
    have hjoined : ∀ m ∈ b.methods, ∀ targets, m.core = .combine "shop:add" targets →
        (some (.function 11) = q.combination? .namesakes defaults m.name ↔ ∃ v,
          q.combination? .namesakes defaults m.name = some v ∧ o.Holds .namesakes defaults u.provider "shop:add" v) := by
      intro m hm targets hcore
      obtain ⟨-, -, name, hname, hiff⟩ := hall m hm _ targets hcore
      rw [hname, Option.bind_some] at hbound
      rwa [Value.eq_function hbound] at hiff
    obtain ⟨total, rest, hb, htotal, hrest⟩ := List.map_eq_cons_iff.1 (Option.some.inj hmethods)
    obtain ⟨count, rest', rfl, hcount, -⟩ := List.map_eq_cons_iff.1 hrest
    have hmem : total ∈ b.methods ∧ count ∈ b.methods := by simp [hb]
    obtain ⟨targets, hcore₁⟩ := Core.eq_combine (congrArg Prod.snd htotal)
    obtain ⟨targets', hcore₂⟩ := Core.eq_combine (congrArg Prod.snd hcount)
    have htotal : total.name = "total" := congrArg Prod.fst htotal
    have hcount : count.name = "count" := congrArg Prod.fst hcount
    refine ⟨b, t', names, rfl, hseed, o, u, ⟨total, hmem.1, htotal, ⟨targets, hcore₁⟩, fun hholds => ?_⟩,
      count, hmem.2, hcount, ⟨targets', hcore₂⟩, ?_⟩
    · have := (hjoined total hmem.1 targets hcore₁).2 ⟨_, htotal ▸ hlive, hholds⟩
      rw [htotal, hlive] at this
      cases this
    · obtain ⟨v, hv, hholds⟩ := (hjoined count hmem.2 targets' hcore₂).1 (by rw [hcount, himported])
      rw [hcount, himported] at hv
      cases hv
      exact hholds

end Amalgam
