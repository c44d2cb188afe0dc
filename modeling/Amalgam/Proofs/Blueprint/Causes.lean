import Amalgam.Proofs.Agreement
import Amalgam.Proofs.Source.Closure

/-!
# What stops a plan

A plan stops at an input that this library refuses, or where the provider fails to resolve a class that the request names, a
contributor or a class of an order (`Blueprint.failsWith_build`). That takes a provider that serves what it has resolved
(`Provider.Supplies`), as the provider of live classes does.
-/

namespace Amalgam

namespace Act

variable {σ α β : Type} {kind : Failure → Prop}

/-- From a state, an operation fails in ways of a kind only. -/
def FailsWith (kind : Failure → Prop) (x : Act σ α) (s : σ) : Prop := ∀ e t, x.runFrom s = (.error e, t) → kind e

theorem failsWith_pure (a : α) (s : σ) : FailsWith kind (pure a : Act σ α) s := fun _ _ h => nomatch h

theorem failsWith_refuse {cause : Refusal} (h : kind (.refusal cause)) (s : σ) :
    FailsWith kind (refuse cause : Act σ α) s := by
  intro e t hrun
  cases hrun
  exact h

theorem failsWith_ofExcept {r : Except Failure α} (h : ∀ e, r = .error e → kind e) (s : σ) : FailsWith kind (ofExcept r) s := by
  intro e t hrun
  cases hrun
  exact h e rfl

theorem FailsWith.mono {kind' : Failure → Prop} {x : Act σ α} {s : σ} (h : FailsWith kind x s) (himp : ∀ e, kind e → kind' e) :
    FailsWith kind' x s := fun e t hrun => himp e (h e t hrun)

/-- What fails in no way succeeds. -/
theorem exists_ok_of_failsWith {x : Act σ α} {s : σ} (h : FailsWith (fun _ => False) x s) : ∃ a t, x.runFrom s = (.ok a, t) := by
  cases hrun : x.runFrom s with
  | mk outcome t =>
    cases outcome with
    | ok a => exact ⟨a, t, rfl⟩
    | error e => exact (h e t hrun).elim

theorem FailsWith.bind {x : Act σ α} {f : α → Act σ β} {s : σ} (hx : FailsWith kind x s)
    (hf : ∀ a u, x.runFrom s = (.ok a, u) → FailsWith kind (f a) u) : FailsWith kind (x >>= f) s := by
  intro e t h
  rw [runFrom_bind] at h
  generalize hrun : x.runFrom s = done at h
  obtain ⟨outcome, u⟩ := done
  cases outcome with
  | ok a => exact hf a u hrun e t h
  | error e' =>
    cases h
    exact hx e t hrun

theorem bind_of_ok {x : Act σ α} {a : α} {s t : σ} (h : x.runFrom s = (.ok a, t)) (f : α → Act σ β) :
    (x >>= f).runFrom s = (f a).runFrom t := by rw [runFrom_bind, h]

theorem bind_of_error {x : Act σ α} {e : Failure} {s t : σ} (h : x.runFrom s = (.error e, t)) (f : α → Act σ β) :
    (x >>= f).runFrom s = (.error e, t) := by rw [runFrom_bind, h]

theorem bind_pure_eq_error {x : Act σ α} {f : α → β} {e : Failure} {s t : σ} :
    (x >>= fun a => pure (f a)).runFrom s = (.error e, t) ↔ x.runFrom s = (.error e, t) := by
  rw [runFrom_bind]
  cases x.runFrom s with
  | mk outcome u =>
    cases outcome with
    | ok a => exact iff_of_false (fun h => nomatch h) fun h => nomatch h
    | error e' => exact Iff.of_eq (by rw [Prod.mk.injEq, Prod.mk.injEq, Except.error.injEq, Except.error.injEq])

/-- A traversal keeps to the failures of its steps, each from the state that the steps before it lead to. -/
theorem FailsWith.mapM {f : α → Act σ β} {as : List α} {s : σ}
    (step : ∀ earlier a later bs u, as = earlier ++ a :: later → (earlier.mapM f).runFrom s = (.ok bs, u) →
      FailsWith kind (f a) u) : FailsWith kind (as.mapM f) s := by
  induction as generalizing s with
  | nil => exact failsWith_pure _ s
  | cons a as ih =>
    rw [List.mapM_cons]
    refine (step [] a as [] s rfl rfl).bind fun b u hb => ?_
    refine FailsWith.bind (ih fun earlier x later bs v hsplit hrun => ?_) fun bs v _ => failsWith_pure _ v
    refine step (a :: earlier) x later (b :: bs) v (by rw [hsplit, List.cons_append]) ?_
    rw [List.mapM_cons]
    exact bind_eq_ok.2 ⟨b, u, hb, bind_eq_ok.2 ⟨bs, v, hrun, rfl⟩⟩

/-- A step that fails ends the traversal. -/
theorem mapM_of_error {f : α → Act σ β} {earlier : List α} {a : α} {bs : List β} {s u v : σ} {e : Failure}
    (hrun : (earlier.mapM f).runFrom s = (.ok bs, u)) (hfails : (f a).runFrom u = (.error e, v)) (later : List α) :
    ((earlier ++ a :: later).mapM f).runFrom s = (.error e, v) := by
  rw [List.mapM_append, bind_of_ok hrun, List.mapM_cons]
  exact bind_of_error (bind_of_error hfails _) _

end Act

open Act (FailsWith Keeps failsWith_pure failsWith_refuse failsWith_ofExcept)

namespace Planner

variable {σ α : Type} {kind : Failure → Prop}

theorem failsWith_ask {question : Act σ α} {t : Planning σ} (h : FailsWith kind question t.provider) :
    FailsWith kind (ask question) t := by
  intro e t' hrun
  rw [runFrom_ask, Prod.mk.injEq] at hrun
  exact h e _ (Prod.ext hrun.1 rfl)

theorem failsWith_unknown {strict : Bool} (told : strict = true → ∀ cause, kind (.refusal (.unknown cause))) (cause : Unknown)
    (t : Planning σ) : FailsWith kind (unknown strict cause) t := by
  unfold unknown
  cases strict with
  | true => exact failsWith_refuse (told rfl _) t
  | false => exact fun e t' h => nomatch h

end Planner

/-! ## Names that nothing answers to -/

section Told

variable {σ : Type} {kind : Failure → Prop} {strict : Bool} (told : strict = true → ∀ cause, kind (.refusal (.unknown cause)))

include told

namespace Blueprint

theorem failsWith_knownSpecs (members : List String) (specs : Entries CombinatorSpec) (t : Planning σ) :
    FailsWith kind (knownSpecs strict members specs) t := by
  induction specs generalizing t with
  | nil => exact failsWith_pure _ t
  | cons e rest ih =>
    unfold knownSpecs
    split
    · exact (ih t).bind fun _ u _ => failsWith_pure _ u
    · exact (Planner.failsWith_unknown told _ t).bind fun _ u _ => ih u

theorem failsWith_usable (phase : Phase) (members names : List String) (t : Planning σ) :
    FailsWith kind (Cutpoints.usable strict phase members names) t := by
  induction names generalizing t with
  | nil => exact failsWith_pure _ t
  | cons name rest ih =>
    have hunknown : ∀ cause, FailsWith kind (Planner.unknown strict cause >>= fun _ => Cutpoints.usable strict phase members rest) t :=
      fun cause => (Planner.failsWith_unknown told cause t).bind fun _ u _ => ih u
    have hkept : FailsWith kind (Cutpoints.usable strict phase members rest >>= fun more => pure (name :: more)) t :=
      (ih t).bind fun _ u _ => failsWith_pure _ u
    unfold Cutpoints.usable
    split
    · exact hkept
    · split
      · exact hunknown _
      · split
        · exact hunknown _
        · exact hkept

theorem failsWith_dropAwaited (member : String) (calls : List Advice.Call) (t : Planning σ) :
    FailsWith kind (dropAwaited strict member calls) t := by
  induction calls generalizing t with
  | nil => exact failsWith_pure _ t
  | cons call rest ih =>
    unfold dropAwaited
    split
    · exact (Planner.failsWith_unknown told _ t).bind fun _ u _ => ih u
    · exact (ih t).bind fun _ u _ => failsWith_pure _ u

omit told in
/-- A method has a contributor to call, whatever its combinator and order are. -/
theorem ne_nil_of_resolve {member : String} {first : SymbolRef} {rest ordered : List SymbolRef}
    {spec spec' : Option CombinatorSpec} {t t' : Planning σ}
    (h : (CombinatorSpec.resolve member (first :: rest) spec).runFrom t = (.ok (spec', ordered), t')) : ordered ≠ [] := by
  unfold CombinatorSpec.resolve at h
  split at h
  · cases h
    exact List.cons_ne_nil _ _
  · split at h
    · cases h
      exact List.cons_ne_nil _ _
    · dsimp only at h
      split at h
      · cases h
        exact List.cons_ne_nil _ _
      · rename_i hne
        cases h
        exact fun he => hne (by rw [he]; rfl)

theorem failsWith_planMethod (c : Context) (member : String) (definitions : List (SymbolRef × Signature))
    (t : Planning σ) : FailsWith kind (planMethod strict c member definitions) t := by
  unfold planMethod
  split
  · exact failsWith_pure _ t
  · rename_i reference signature rest
    dsimp only
    split
    · exact failsWith_pure _ t
    have hresolve : FailsWith kind
        (CombinatorSpec.resolve member (((reference, signature) :: rest).map Prod.fst) (c.specs.get? member)) t := by
      unfold CombinatorSpec.resolve
      split
      · exact failsWith_pure _ t
      · split
        · exact failsWith_pure _ t
        · dsimp only
          split <;> exact fun e t' h => nomatch h
    refine hresolve.bind fun r u hr => ?_
    obtain ⟨spec, ordered⟩ := r
    have hne := ne_nil_of_resolve hr
    have hplan : FailsWith kind (usablePlan strict member signature.isAsync (c.plan member)) u := by
      unfold usablePlan
      split
      · exact failsWith_pure _ u
      · refine (failsWith_dropAwaited told member _ u).bind fun before v _ => ?_
        exact (failsWith_dropAwaited told member _ v).bind fun after w _ => failsWith_pure _ w
    refine hplan.bind fun plan v _ => ?_
    refine (failsWith_ofExcept (fun e he => ?_) v).bind fun method w _ => failsWith_pure _ w
    unfold MethodDef.synthesize at he
    obtain ⟨first, more, rfl⟩ := List.exists_cons_of_ne_nil hne
    cases hspec : spec.map CombinatorSpec.function with
    | none =>
      rw [hspec, MethodDef.coreOf_none] at he
      cases he
    | some f =>
      rw [hspec, MethodDef.coreOf_some] at he
      cases he

theorem failsWith_planMethods (c : Context) (members : MemberMap) (t : Planning σ) :
    FailsWith kind (planMethods strict c members) t := by
  induction members generalizing t with
  | nil => exact failsWith_pure _ t
  | cons e rest ih =>
    refine (failsWith_planMethod told c e.1 e.2 t).bind fun here u _ => ?_
    exact (ih u).bind fun more v _ => failsWith_pure _ v

theorem failsWith_planContext {p : Provider σ} {d : Defaults} {q : Request} {x : Mix} {members : MemberMap} {t : Planning σ}
    (hread : FailsWith kind (CombinatorSpec.parseAll p x.participants q.combinators) t.provider)
    (hcutpoints : ∀ c ∈ [q.before, q.after], ∀ cause, c.expand members.plain = .error cause → kind (.refusal cause)) :
    FailsWith kind (planContext p d strict q x members) t := by
  have hexpand : ∀ c ∈ [q.before, q.after], ∀ u : Planning σ,
      FailsWith kind (Act.ofExcept ((c.expand members.plain).mapError .refusal)) u := by
    refine fun c hc u => failsWith_ofExcept (fun e he => ?_) u
    obtain ⟨cause, hcause, rfl⟩ := Outcome.mapError_eq_error.1 he
    exact hcutpoints c hc cause hcause
  refine (Planner.failsWith_ask hread).bind fun specs u _ => ?_
  refine (failsWith_knownSpecs told _ specs u).bind fun specs u _ => ?_
  refine (hexpand q.before (by simp) u).bind fun beforeNames u _ => ?_
  refine (failsWith_usable told _ _ beforeNames u).bind fun before u _ => ?_
  refine (hexpand q.after (by simp) u).bind fun afterNames u _ => ?_
  exact (failsWith_usable told _ _ afterNames u).bind fun after u _ => failsWith_pure _ u

end Blueprint

end Told

/-! ## What a caller gives -/

section Own

variable {σ : Type} {p : Provider σ} {kind : Failure → Prop} (own : ∀ cause, kind (.refusal cause))

include own

theorem Provider.failsWith_parse (text : String) (s : σ) : FailsWith kind (Provider.parse text) s := by
  unfold Provider.parse
  cases SymbolRef.parse? text with
  | none => exact failsWith_refuse (own _) s
  | some r => exact failsWith_pure r s

namespace CombinatorSpec

theorem failsWith_of (f : Callee) (order : Option (List SymbolRef)) (s : σ) : FailsWith kind (CombinatorSpec.of f order) s := by
  cases f with
  | text path => exact (Provider.failsWith_parse own path s).bind fun r u _ => failsWith_pure _ u
  | live handle r => exact failsWith_pure _ s
  | nameless shown => exact failsWith_refuse (own _) s
  | other shown => exact failsWith_refuse (own _) s

theorem failsWith_checkOrder (member : String) (participants : List SymbolRef) (spec : CombinatorSpec) (s : σ) :
    FailsWith kind (checkOrder member participants spec) s := by
  unfold checkOrder
  split
  · exact failsWith_refuse (own _) s
  · exact failsWith_pure _ s

/-- To read an entry is to resolve the classes of its order, if it has one. -/
theorem failsWith_parse {entry : CombinatorEntry} {s : σ}
    (hresolve : ∀ f order, entry = .ordered f order → FailsWith kind (order.mapM p.resolve) s) (participants : List SymbolRef)
    (member : String) : FailsWith kind (parse p participants member entry) s := by
  have hcheck : ∀ (spec : CombinatorSpec) (u : σ), FailsWith kind
      (checkOrder member participants spec >>= fun _ => (pure spec : Act σ CombinatorSpec)) u :=
    fun spec u => (failsWith_checkOrder own member participants spec u).bind fun _ v _ => failsWith_pure _ v
  cases entry with
  | ready spec => exact (failsWith_pure spec s).bind fun spec u _ => hcheck spec u
  | single f =>
    cases f with
    | other shown => exact (failsWith_refuse (own _) s).bind fun spec u _ => hcheck spec u
    | _ => exact (failsWith_of own _ none s).bind fun spec u _ => hcheck spec u
  | ordered f order =>
    refine (hresolve f order rfl).bind fun refs u _ => ?_
    exact (failsWith_of own f (some refs) u).bind fun spec v _ => hcheck spec v
  | badSequence shown => exact (failsWith_refuse (own _) s).bind fun spec u _ => hcheck spec u

/-- The entries are read one after another, each from the state that those before it lead to. -/
theorem failsWith_parseAll {participants : List SymbolRef} {entries : Entries CombinatorEntry} {s : σ}
    (hresolve : ∀ before member f order after specs u, entries = before ++ (member, .ordered f order) :: after →
      (parseAll p participants before).runFrom s = (.ok specs, u) → FailsWith kind (order.mapM p.resolve) u) :
    FailsWith kind (parseAll p participants entries) s := by
  unfold parseAll at hresolve ⊢
  generalize ([] : Entries CombinatorSpec) = specs at hresolve ⊢
  generalize ([] : Entries Handle) = claimed at hresolve ⊢
  induction entries generalizing specs claimed s with
  | nil => exact failsWith_pure _ s
  | cons e rest ih =>
    obtain ⟨member, entry⟩ := e
    unfold parseFrom
    refine (failsWith_parse own (fun f order he => ?_) participants member).bind fun spec u hspec => ?_
    · subst he
      exact hresolve [] member f order rest specs s rfl rfl
    · refine ih _ _ fun before member' f order after specs' v hsplit hrun => ?_
      refine hresolve ((member, entry) :: before) member' f order after specs' v (by rw [hsplit, List.cons_append]) ?_
      unfold parseFrom
      rw [Act.runFrom_bind, hspec]
      exact hrun

omit own in
/-- An order that cannot be resolved ends the reading. -/
theorem parseAll_of_error {participants : List SymbolRef} {before : Entries CombinatorEntry} {specs : Entries CombinatorSpec}
    {member : String} {f : Callee} {order : List TypeLike} {s u v : σ} {e : Failure}
    (hrun : (parseAll p participants before).runFrom s = (.ok specs, u))
    (hfails : (order.mapM p.resolve).runFrom u = (.error e, v)) (after : Entries CombinatorEntry) :
    (parseAll p participants (before ++ (member, .ordered f order) :: after)).runFrom s = (.error e, v) := by
  unfold parseAll at hrun ⊢
  generalize ([] : Entries CombinatorSpec) = specs' at hrun ⊢
  generalize ([] : Entries Handle) = claimed at hrun ⊢
  induction before generalizing specs' claimed s with
  | nil =>
    cases hrun
    rw [List.nil_append, parseFrom]
    exact Act.bind_of_error (Act.bind_of_error hfails _) _
  | cons entry before ih =>
    unfold parseFrom at hrun
    obtain ⟨spec, w, hspec, hrun⟩ := Act.bind_eq_ok.1 hrun
    rw [List.cons_append, parseFrom, Act.runFrom_bind, hspec]
    exact ih _ _ hrun

end CombinatorSpec

theorem Fields.failsWith_addAll (origin : SymbolRef) (done : List FieldDef) (fields : List Field) (e : Failure)
    (h : addAll origin done fields = .error e) : kind e := by
  induction fields generalizing done with
  | nil => cases h
  | cons f rest ih =>
    unfold addAll at h
    split at h
    · split at h
      · exact ih done h
      · cases h
        exact own _
    · split at h
      · exact ih done h
      · exact ih _ h

theorem Blueprint.failsWith_resolveMix {q : Request} {t : Planning σ}
    (hresolve : ∀ earlier type later refs s, q.base :: q.mixins = earlier ++ type :: later →
      (earlier.mapM p.resolve).runFrom t.provider = (.ok refs, s) → FailsWith kind (p.resolve type) s) :
    FailsWith kind (resolveMix p q) t := by
  refine (Planner.failsWith_ask (hresolve [] q.base q.mixins [] _ rfl rfl)).bind fun base u hbase => ?_
  rw [Planner.mapM_ask]
  have hmixins : FailsWith kind (q.mixins.mapM p.resolve) u.provider := by
    refine FailsWith.mapM fun earlier type later refs s hsplit hrun => ?_
    refine hresolve (q.base :: earlier) type later (base :: refs) s (by rw [hsplit, List.cons_append]) ?_
    rw [List.mapM_cons]
    exact Act.bind_eq_ok.2 ⟨base, _, Planner.ask_eq_ok hbase, Act.bind_eq_ok.2 ⟨refs, s, hrun, rfl⟩⟩
  refine (Planner.failsWith_ask hmixins).bind fun mixins v _ => ?_
  split
  · exact failsWith_refuse (own _) v
  · exact failsWith_pure _ v

end Own

/-! ## What a provider has -/

/--
A provider whose manifests can be had: once a class is resolved it is known, and so are the sets that a manifest lists; what is
known stays so, and to serve its manifest fails in ways of a kind only.
-/
structure Provider.Supplies {σ : Type} (p : Provider σ) (kind : Failure → Prop) (Inv : σ → Prop)
    (Known : SymbolRef → σ → Prop) : Prop where
  keeps : p.Keeps Inv fun _ _ => True
  stays (r : SymbolRef) : p.Keeps (Known r) fun _ _ => True
  resolved {type : TypeLike} {r : SymbolRef} {s s' : σ} : (p.resolve type).runFrom s = (.ok r, s') → Known r s'
  listed {r : SymbolRef} {m : Manifest} {s s' : σ} : Inv s → (p.manifest r).runFrom s = (.ok m, s') →
    ∀ set ∈ m.capabilitySets, Known set s'
  served {r : SymbolRef} {s : σ} : Known r s → FailsWith kind (p.manifest r) s

namespace Blueprint

/-- What a plan learns of the contributors before it reads combinators and cutpoints. -/
structure Survey where
  mix : Mix
  header : Header
  extra : List SymbolRef
  fields : List FieldDef
  members : MemberMap

variable {σ : Type}

def survey (p : Provider σ) (q : Request) : Planner σ Survey := do
  if !Text.isFreeName q.name then Act.refuse (.badClassName q.name)
  let mix ← resolveMix p q
  let (header, extra) ← planHeader p q.name mix
  let fields ← Planner.ask (Fields.synthesize p mix.base mix.mixins header.capabilitySets)
  let members ← memberMap p .base [] mix.participants
  return { mix, header, extra, fields, members }

/-- A plan is a survey, by which the combinators are read and the methods planned. -/
theorem outline_eq_survey (p : Provider σ) (d : Defaults) (strict : Bool) (q : Request) :
    outline p d strict q = survey p q >>= fun v => do
      let context ← planContext p d strict q v.mix v.members
      let methods ← planMethods strict context v.members
      return { mix := v.mix, header := v.header, extra := v.extra, fields := v.fields, context, methods } := by
  unfold outline survey
  split
  · rfl
  · simp only [bind_assoc, pure_bind]

end Blueprint

theorem Provider.Supplies.mono {σ : Type} {p : Provider σ} {kind kind' : Failure → Prop} {Inv : σ → Prop}
    {Known : SymbolRef → σ → Prop} (h : p.Supplies kind Inv Known) (himp : ∀ e, kind e → kind' e) : p.Supplies kind' Inv Known :=
  { h with served := fun hr => (h.served hr).mono himp }

/-- The provider is in a good state and knows the classes. -/
def Provider.Knows {σ : Type} (Inv : σ → Prop) (Known : SymbolRef → σ → Prop) (rs : List SymbolRef) (s : σ) : Prop :=
  Inv s ∧ ∀ r ∈ rs, Known r s

section Supplies

variable {σ : Type} {p : Provider σ} {kind : Failure → Prop} {Inv : σ → Prop} {Known : SymbolRef → σ → Prop}
  {t : Planning σ} (supplies : p.Supplies kind Inv Known)

include supplies

open Provider (Knows)

/-- What a class is asked for is in its manifest. -/
theorem Provider.Supplies.failsWith_capabilitySets {r : SymbolRef} {s : σ} (h : Known r s) :
    FailsWith kind (p.capabilitySets r) s := (supplies.served h).bind fun _ u _ => failsWith_pure _ u

theorem Provider.Supplies.failsWith_eligibleMembers {r : SymbolRef} {s : σ} (h : Known r s) (role : Role) :
    FailsWith kind (p.eligibleMembers r role) s := (supplies.served h).bind fun _ u _ => failsWith_pure _ u

theorem Provider.Supplies.keeps_knows (rs : List SymbolRef) : p.Keeps (Knows Inv Known rs) fun _ _ => True where
  resolve type s h := ⟨supplies.keeps.resolve type s h.1, fun r hr => (supplies.stays r).resolve type s (h.2 r hr)⟩
  manifest r s h := ⟨supplies.keeps.manifest r s h.1, fun r' hr => (supplies.stays r').manifest r s (h.2 r' hr)⟩
  good _ _ := trivial

namespace Blueprint

theorem knows_of_resolveAll {types : List TypeLike} {refs : List SymbolRef} {t t' : Planning σ} (good : Inv t.provider)
    (h : (types.mapM fun type => Planner.ask (p.resolve type)).runFrom t = (.ok refs, t')) :
    Knows Inv Known refs t'.provider := by
  rw [Planner.mapM_ask] at h
  have hrun := Planner.ask_eq_ok h
  generalize t.provider = s at good hrun
  generalize t'.provider = s' at hrun
  clear h
  induction types generalizing refs s with
  | nil =>
    cases hrun
    exact ⟨good, fun r hr => absurd hr List.not_mem_nil⟩
  | cons type types ih =>
    rw [List.mapM_cons] at hrun
    obtain ⟨r, u, hr, hrun⟩ := Act.bind_eq_ok.1 hrun
    obtain ⟨rest, v, hrest, hrun⟩ := Act.bind_eq_ok.1 hrun
    cases hrun
    have hu := supplies.keeps.resolve type s good
    rw [hr] at hu
    obtain ⟨hinv, hknown⟩ := ih u hu hrest
    refine ⟨hinv, fun x hx => ?_⟩
    rcases List.mem_cons.1 hx with rfl | hx
    · have hstays := (Keeps.mapM fun type _ => (supplies.stays x).resolve type : Keeps (Known x) (types.mapM p.resolve)) u
        (supplies.resolved hr)
      rwa [hrest] at hstays
    · exact hknown x hx

theorem failsWith_setsAbove {set : SymbolRef} (h : Known set t.provider) : FailsWith kind (setsAbove p set) t := by
  have hask : FailsWith kind (Planner.ask (p.capabilitySets set)) t :=
    Planner.failsWith_ask (supplies.failsWith_capabilitySets h)
  intro e t' hrun
  rw [runFrom_setsAbove] at hrun
  split at hrun
  · cases hrun
  · rename_i hasked
    exact hask e t' (hasked.trans hrun)

theorem failsWith_minimal {sets : List SymbolRef} (h : Knows Inv Known sets t.provider) : FailsWith kind (minimal p sets) t := by
  have himplied : ∀ rest ⊆ sets, ∀ t : Planning σ, Knows Inv Known sets t.provider → FailsWith kind (implied p rest) t := by
    intro rest
    induction rest with
    | nil => exact fun _ t _ => failsWith_pure _ t
    | cons set rest ih =>
      intro hsub t h
      obtain ⟨hset, hrest⟩ := List.cons_subset.1 hsub
      refine (failsWith_setsAbove supplies (h.2 set hset)).bind fun above u habove => ?_
      exact (ih hrest u (setsAbove_keeps (supplies.keeps_knows sets) h habove)).bind fun more v _ => failsWith_pure _ v
  exact (himplied sets (List.Subset.refl _) t h).bind fun above u _ => failsWith_pure _ u

/-- The sets that the contributors list are known. -/
theorem knows_of_served {rs : List SymbolRef} {served : List (List SymbolRef)} {t t' : Planning σ} (good : Inv t.provider)
    (h : (rs.mapM fun r => Planner.ask (p.capabilitySets r)).runFrom t = (.ok served, t')) :
    Knows Inv Known served.flatten t'.provider := by
  induction rs generalizing served t with
  | nil =>
    cases h
    exact ⟨good, fun r hr => absurd hr List.not_mem_nil⟩
  | cons r rs ih =>
    rw [List.mapM_cons] at h
    obtain ⟨sets, u, hsets, h⟩ := Act.bind_eq_ok.1 h
    obtain ⟨rest, v, hrest, h⟩ := Act.bind_eq_ok.1 h
    cases h
    have hu := Planner.capabilitySets_keeps supplies.keeps good hsets
    obtain ⟨m, x, hm, hm'⟩ := Act.bind_eq_ok.1 (Planner.ask_eq_ok hsets)
    cases hm'
    obtain ⟨hinv, hknown⟩ := ih hu hrest
    refine ⟨hinv, fun set hset => ?_⟩
    rcases List.mem_append.1 hset with hset | hset
    · exact Planner.mapM_keeps (fun _ => Planner.capabilitySets_keeps (supplies.stays set)) (supplies.listed good hm set hset) hrest
    · exact hknown set hset

theorem failsWith_planHeader (name : String) {x : Mix} (h : Knows Inv Known x.participants t.provider) :
    FailsWith kind (planHeader p name x) t := by
  have hserved : FailsWith kind (x.participants.mapM fun r => Planner.ask (p.capabilitySets r)) t := by
    refine FailsWith.mapM fun earlier r later sets u hsplit hrun => ?_
    have hu : Knows Inv Known x.participants u.provider :=
      Planner.mapM_keeps (fun _ => Planner.capabilitySets_keeps (supplies.keeps_knows x.participants)) h hrun
    exact Planner.failsWith_ask (supplies.failsWith_capabilitySets (hu.2 r (by simp [hsplit])))
  refine hserved.bind fun served u hrun => ?_
  obtain ⟨hinv, hknown⟩ := knows_of_served supplies h.1 hrun
  refine (failsWith_minimal supplies ⟨hinv, fun set hset => hknown set ?_⟩).bind fun extra v _ => failsWith_pure _ v
  exact mem_union.1 (List.mem_filter.1 hset).1

theorem failsWith_memberMap (role : Role) (m : MemberMap) {rs : List SymbolRef} (h : Knows Inv Known rs t.provider) :
    FailsWith kind (memberMap p role m rs) t := by
  induction rs generalizing role m t with
  | nil => exact failsWith_pure _ t
  | cons r rest ih =>
    have hr := h.2 r List.mem_cons_self
    refine (Planner.failsWith_ask (supplies.failsWith_eligibleMembers hr role)).bind fun members u hrun => ?_
    have hu := (Planner.eligibleMembers_eq_ok (supplies.keeps_knows (r :: rest)) h hrun).2
    exact ih _ _ ⟨hu.1, fun x hx => hu.2 x (List.mem_cons_of_mem _ hx)⟩

end Blueprint

variable (own : ∀ cause, kind (.refusal cause))

include own

theorem Fields.failsWith_addContributors (done : List FieldDef) {rs : List SymbolRef} {s : σ} (h : Knows Inv Known rs s) :
    FailsWith kind (addContributors p done rs) s := by
  induction rs generalizing done s with
  | nil => exact failsWith_pure _ s
  | cons r rest ih =>
    refine (supplies.served (h.2 r List.mem_cons_self)).bind fun m u hrun => ?_
    have hu := (supplies.keeps_knows (r :: rest)).manifest r s h
    rw [hrun] at hu
    refine (failsWith_ofExcept (Fields.failsWith_addAll own r done m.fields) u).bind fun next v hnext => ?_
    rw [Act.runFrom_ofExcept, Prod.mk.injEq] at hnext
    obtain ⟨-, rfl⟩ := hnext
    exact ih next ⟨hu.1, fun x hx => hu.2 x (List.mem_cons_of_mem _ hx)⟩

namespace Blueprint

/-- The survey of the contributors fails as their resolution does, or in a way of this library's own. -/
theorem failsWith_survey {q : Request} (good : Inv t.provider) (hmix : FailsWith kind (resolveMix p q) t) :
    FailsWith kind (survey p q) t := by
  unfold survey
  split
  · exact fun e t' h => failsWith_refuse (α := Survey) (own _) t e t' h
  refine hmix.bind fun x u hx => ?_
  have hu := knows_of_resolveAll supplies good (participants_of_resolveMix hx)
  have keeps := supplies.keeps_knows x.participants
  refine (failsWith_planHeader supplies q.name hu).bind fun header v hheader => ?_
  have hv := (planHeader_eq_ok keeps hu hheader).2.2.2
  refine (Planner.failsWith_ask (Fields.failsWith_addContributors supplies own _ hv)).bind fun fields w hfields => ?_
  have hw := (Fields.addContributors_eq_ok keeps hv (Planner.ask_eq_ok hfields)).2
  exact (failsWith_memberMap supplies _ _ hw).bind fun members y _ => failsWith_pure _ y

/-- A build fails as the resolution of its contributors or of the classes of an order does, or in a way of this library's own. -/
theorem failsWith_build {d : Defaults} {strict : Bool} {q : Request} (good : Inv t.provider)
    (hmix : FailsWith kind (resolveMix p q) t) (hread : ∀ v u, (survey p q).runFrom t = (.ok v, u) →
      FailsWith kind (CombinatorSpec.parseAll p v.mix.participants q.combinators) u.provider) :
    FailsWith kind (build p d strict q) t := by
  have told : strict = true → ∀ cause, kind (.refusal (.unknown cause)) := fun _ _ => own _
  have houtline : FailsWith kind (outline p d strict q) t := by
    rw [outline_eq_survey]
    refine (failsWith_survey supplies own good hmix).bind fun v u hv => ?_
    refine (failsWith_planContext told (hread v u hv) fun _ _ _ _ => own _).bind fun context w _ => ?_
    exact (failsWith_planMethods told context v.members w).bind fun methods x _ => failsWith_pure _ x
  intro e t' h
  cases hrun : (outline p d strict q).runFrom t with
  | mk outcome u =>
    cases outcome with
    | error e' =>
      rw [build_of_outline_error hrun, Prod.mk.injEq] at h
      obtain ⟨he, rfl⟩ := h
      cases he
      exact houtline _ _ hrun
    | ok o =>
      obtain ⟨claims, hclaims⟩ := claimsOf_eq_ok (s := u.provider) (outline_eq_ok supplies.keeps good hrun)
      rw [build_of_outline hrun, hclaims] at h
      cases h

end Blueprint

end Supplies

end Amalgam
