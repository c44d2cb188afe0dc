import Amalgam.Proofs.Blueprint.Bases
import Amalgam.Proofs.Blueprint.Claims
import Amalgam.Proofs.Blueprint.Hooks
import Amalgam.Proofs.Blueprint.Quiet

/-!
# Plans from the same things in another order

Two steps are alike (`Act.Alike`) if both fail or both give results that are related, from whatever states. The steps that
read combinators and cutpoints and plan the methods are alike if they are given the same members, names and contributors
in different orders: what they look up by name is the same, and what they list comes out in another order
(`alike_planContext`, `alike_planMethods`). So do the symbols that they claim (`both_combinatorClaims`).
-/

namespace Amalgam

variable {ε α β γ δ : Type}

namespace Outcome

/-- Both fail, for whatever reasons, or both give results that are related. -/
def Both (R : α → β → Prop) : Except ε α → Except ε β → Prop
  | .ok a, .ok b => R a b
  | .error _, .error _ => True
  | _, _ => False

theorem Both.mono {R S : α → β → Prop} {x : Except ε α} {y : Except ε β} (h : Both R x y)
    (hRS : ∀ a b, x = .ok a → y = .ok b → R a b → S a b) : Both S x y := by
  cases x with
  | error e =>
    cases y with
    | error e' => trivial
    | ok b => exact h.elim
  | ok a =>
    cases y with
    | error e' => exact h.elim
    | ok b => exact hRS a b rfl rfl h

theorem Both.bind {R : α → β → Prop} {S : γ → δ → Prop} {x : Except ε α} {y : Except ε β} {f : α → Except ε γ}
    {g : β → Except ε δ} (h : Both R x y) (hf : ∀ a b, R a b → Both S (f a) (g b)) : Both S (x >>= f) (y >>= g) := by
  cases x with
  | error e =>
    cases y with
    | error e' => trivial
    | ok b => exact h.elim
  | ok a =>
    cases y with
    | error e' => exact h.elim
    | ok b => exact hf a b h

theorem both_refl {R : α → α → Prop} (hR : ∀ a, R a a) (x : Except ε α) : Both R x x := by
  cases x with
  | error e => trivial
  | ok a => exact hR a

theorem both_mapError {ε' : Type} {R : α → β → Prop} {x : Except ε α} {y : Except ε β} (h : Both R x y) (f : ε → ε') :
    Both R (x.mapError f) (y.mapError f) := by
  cases x <;> cases y <;> exact h

/-- A traversal of the same items in another order comes to the same results in another order. -/
theorem both_mapM_of_perm {f : α → Except ε β} {as as' : List α} (h : as.Perm as') :
    Both List.Perm (as.mapM f) (as'.mapM f) := by
  have hok : ∀ {as as' : List α} {bs : List β}, as.Perm as' → as.mapM f = .ok bs →
      ∃ bs', as'.mapM f = .ok bs' ∧ bs.Perm bs' := by
    intro as as' bs h hbs
    obtain ⟨bs', hall, hperm⟩ := List.perm_comp_forall₂ h.symm (mapM_eq_ok.1 hbs)
    exact ⟨bs', mapM_eq_ok.2 hall, hperm.symm⟩
  cases hx : as.mapM f with
  | ok bs =>
    obtain ⟨bs', hbs', hperm⟩ := hok h hx
    rw [hbs']
    exact hperm
  | error e =>
    cases hy : as'.mapM f with
    | error e' => trivial
    | ok bs' =>
      obtain ⟨bs, hbs, -⟩ := hok h.symm hy
      rw [hx] at hbs
      cases hbs

end Outcome

open Outcome (Both)

variable {σ τ : Type}

namespace Act

/-- From whatever states, both fail or both give related results. -/
def Alike (R : α → β → Prop) (x : Act σ α) (y : Act τ β) : Prop := ∀ s t, Both R (x.runFrom s).1 (y.runFrom t).1

theorem alike_pure {R : α → β → Prop} {a : α} {b : β} (h : R a b) : Alike R (pure a : Act σ α) (pure b : Act τ β) :=
  fun _ _ => h

theorem alike_throw {R : α → β → Prop} (e e' : Failure) : Alike R (throw e : Act σ α) (throw e' : Act τ β) :=
  fun _ _ => trivial

theorem alike_ofExcept {R : α → β → Prop} {x : Except Failure α} {y : Except Failure β} (h : Both R x y) :
    Alike R (ofExcept x : Act σ α) (ofExcept y : Act τ β) := fun _ _ => h

protected theorem Alike.bind {R : α → β → Prop} {S : γ → δ → Prop} {x : Act σ α} {y : Act τ β} {f : α → Act σ γ}
    {g : β → Act τ δ} (h : Alike R x y) (hf : ∀ a b, R a b → Alike S (f a) (g b)) : Alike S (x >>= f) (y >>= g) := by
  intro s t
  have hst := h s t
  rw [runFrom_bind, runFrom_bind]
  generalize x.runFrom s = done at hst
  generalize y.runFrom t = done' at hst
  obtain ⟨r, s'⟩ := done
  obtain ⟨r', t'⟩ := done'
  cases r with
  | error e =>
    cases r' with
    | error e' => trivial
    | ok b => exact hst.elim
  | ok a =>
    cases r' with
    | error e' => exact hst.elim
    | ok b => exact hf a b hst s' t'

end Act

open Act (Alike alike_pure alike_throw alike_ofExcept)

/-- Where no key comes twice, tables with the same entries differ in order only. -/
theorem Entries.perm_of_get?_eq {t u : Entries α} (ht : t.keys.Nodup) (hu : u.keys.Nodup)
    (h : ∀ key, t.get? key = u.get? key) : t.Perm u := by
  refine (List.perm_ext_iff_of_nodup (List.Nodup.of_map _ ht) (List.Nodup.of_map _ hu)).2 fun e => ?_
  obtain ⟨key, value⟩ := e
  constructor
  · intro he
    exact mem_of_get? (h key ▸ get?_of_mem ht he)
  · intro he
    exact mem_of_get? ((h key).symm ▸ get?_of_mem hu he)

/-! ## Names -/

namespace Cutpoints

theorem both_expand {plain plain' : List String} (h : plain.Perm plain') (c : Cutpoints) :
    Both List.Perm (c.expand plain) (c.expand plain') := by
  cases c with
  | everything => exact h.append_right _
  | _ => exact Outcome.both_refl List.Perm.refl _

/-- Whether a name can carry advice. -/
def carries (members : List String) (name : String) : Bool :=
  name == Advice.all || (!Advice.isHook name && members.contains name)

/-- A strict plan takes names only if all can carry advice, a lenient one leaves the others out. -/
theorem outcome_usable (strict : Bool) (phase : Phase) (members names : List String) (t : Planning σ) :
    if strict = true ∧ ∃ name ∈ names, carries members name = false
    then ∃ e, ((usable strict phase members names).runFrom t).1 = .error e
    else ((usable strict phase members names).runFrom t).1 = .ok (names.filter (carries members)) := by
  induction names generalizing t with
  | nil => simp [usable]
  | cons name rest ih =>
    have hstep : (usable strict phase members (name :: rest) : Planner σ _) =
        if carries members name = true then usable strict phase members rest >>= fun more => pure (name :: more)
        else Planner.unknown strict
          (if Advice.isHook name then .hookAsCutpoint name phase else .cutpoint phase name) >>= fun _ =>
            usable strict phase members rest := by
      rw [usable, carries]
      by_cases hall : (name == Advice.all) = true
      · simp [hall]
      · by_cases hhook : Advice.isHook name = true
        · simp [hall, hhook]
        · by_cases hmem : members.contains name = true <;> simp_all
    rw [hstep]
    by_cases hname : carries members name = true
    · have hiff : (∃ n ∈ name :: rest, carries members n = false) ↔ ∃ n ∈ rest, carries members n = false := by
        simp [hname]
      rw [if_pos hname, Act.runFrom_bind, List.filter_cons_of_pos hname, if_congr (and_congr_right fun _ => hiff) rfl rfl]
      have hrest := ih t
      generalize (usable strict phase members rest).runFrom t = done at hrest
      obtain ⟨r, u⟩ := done
      split at hrest
      · rename_i hbad
        rw [if_pos hbad]
        obtain ⟨e, rfl⟩ := hrest
        exact ⟨e, rfl⟩
      · rename_i hgood
        rw [if_neg hgood]
        dsimp only at hrest
        rw [hrest]
        rfl
    · rw [if_neg hname, List.filter_cons_of_neg hname]
      cases strict with
      | true =>
        rw [if_pos ⟨rfl, name, List.mem_cons_self, by simpa using hname⟩]
        exact ⟨_, rfl⟩
      | false =>
        rw [if_neg fun h => (by cases h.1)]
        have hrest := ih { t with
          notices := t.notices ++ [.ignored (if Advice.isHook name then .hookAsCutpoint name phase else .cutpoint phase name)] }
        rw [if_neg fun h => (by cases h.1)] at hrest
        exact hrest

theorem alike_usable (strict : Bool) (phase : Phase) {members members' names names' : List String}
    (hmembers : ∀ name, name ∈ members ↔ name ∈ members') (hnames : names.Perm names') :
    Alike List.Perm (usable strict phase members names : Planner σ _)
      (usable strict phase members' names' : Planner τ _) := by
  intro s t
  have hcarries : carries members' = carries members := by
    funext name
    unfold carries
    congr 2
    exact Bool.eq_iff_iff.2 (by rw [List.contains_iff_mem, List.contains_iff_mem, hmembers])
  have hx := outcome_usable strict phase members names s
  have hy := outcome_usable strict phase members' names' t
  rw [hcarries] at hy
  have hiff : (∃ n ∈ names, carries members n = false) ↔ ∃ n ∈ names', carries members n = false := by
    simp only [hnames.mem_iff]
  by_cases hbad : strict = true ∧ ∃ n ∈ names, carries members n = false
  · rw [if_pos hbad] at hx
    rw [if_pos ⟨hbad.1, hiff.1 hbad.2⟩] at hy
    obtain ⟨e, hx⟩ := hx
    obtain ⟨e', hy⟩ := hy
    rw [hx, hy]
    trivial
  · rw [if_neg hbad] at hx
    rw [if_neg fun h => hbad ⟨h.1, hiff.2 h.2⟩] at hy
    rw [hx, hy]
    exact hnames.filter _

end Cutpoints

/-! ## Combinators -/

namespace CombinatorSpec

variable {p : Provider σ}

/-- Of the contributors, an order needs to know the paths only. -/
theorem parseAll_congr {rs rs' : List SymbolRef} (h : rs.Perm rs') (entries : Entries CombinatorEntry) :
    parseAll p rs entries = parseAll p rs' entries := by
  have hcontains : ∀ path, (rs.map SymbolRef.path).contains path = (rs'.map SymbolRef.path).contains path := fun path =>
    Bool.eq_iff_iff.2 (by rw [List.contains_iff_mem, List.contains_iff_mem, (h.map SymbolRef.path).mem_iff])
  have hcheck : ∀ member, (checkOrder member rs : CombinatorSpec → Act σ Unit) = checkOrder member rs' := by
    intro member
    funext spec
    simp only [checkOrder, hcontains]
  have hparse : parse p rs = parse p rs' := by
    funext member entry
    simp only [parse, hcheck]
  have hfrom : ∀ specs claimed, parseFrom p rs specs claimed entries = parseFrom p rs' specs claimed entries := by
    induction entries with
    | nil => exact fun _ _ => rfl
    | cons e rest ih =>
      intro specs claimed
      obtain ⟨member, entry⟩ := e
      simp only [parseFrom, hparse, ih]
  exact hfrom [] []

end CombinatorSpec

namespace Blueprint

theorem knownSpecs_congr {members members' : List String} (h : ∀ name, name ∈ members ↔ name ∈ members') (strict : Bool)
    (specs : Entries CombinatorSpec) :
    (knownSpecs strict members specs : Planner σ _) = knownSpecs strict members' specs := by
  have hcontains : ∀ name, members.contains name = members'.contains name := fun name =>
    Bool.eq_iff_iff.2 (by rw [List.contains_iff_mem, List.contains_iff_mem, h])
  induction specs with
  | nil => rfl
  | cons e rest ih => simp only [knownSpecs, hcontains, ih]

theorem nodup_withDefaults (d : Defaults) (members names : List String) (phase : Phase) {specs : Entries CombinatorSpec}
    (h : specs.keys.Nodup) : (withDefaults d members phase names specs).keys.Nodup := by
  induction names generalizing specs with
  | nil => exact h
  | cons name names ih =>
    have hstep : (if members.contains (Advice.hook phase name) then
        specs.putNew (Advice.hook phase name) (d.specOf (Advice.hook phase name)) else specs).keys.Nodup := by
      split
      · exact Entries.nodup_keys_putNew h _ _
      · exact h
    exact ih hstep

end Blueprint

theorem CombinatorSpec.nodup_parseAll {p : Provider σ} {rs : List SymbolRef} {entries : Entries CombinatorEntry}
    {specs : Entries CombinatorSpec} {s s' : σ} (h : (parseAll p rs entries).runFrom s = (.ok specs, s')) :
    specs.keys.Nodup := by
  suffices ∀ (done : Entries CombinatorSpec) (claimed : Entries Handle) (s : σ), done.keys.Nodup →
      (parseFrom p rs done claimed entries).runFrom s = (.ok specs, s') → specs.keys.Nodup from
    this [] [] s (by simp [Entries.keys]) h
  clear h s
  induction entries with
  | nil =>
    intro done claimed s hdone h
    cases h
    exact hdone
  | cons e rest ih =>
    intro done claimed s hdone h
    obtain ⟨spec, u, -, h⟩ := Act.bind_eq_ok.1 h
    exact ih _ _ u (Entries.nodup_keys_put hdone _ _) h

/-! ## Methods -/

namespace MemberMap

theorem mem_awaitedHooks {m : MemberMap} {name : String} : name ∈ m.awaitedHooks ↔
    ∃ e ∈ m, Advice.isHook e.1 = true ∧ (e.2.head?.map fun d => d.2.isAsync).getD false = true ∧ e.1 = name := by
  simp only [awaitedHooks, List.mem_map, List.mem_filter, Bool.and_eq_true, and_assoc]

end MemberMap

theorem Advice.weave_congr {composite member : String} {before after : Bool}
    {defined defined' awaited awaited' : List String} (hdefined : ∀ name, name ∈ defined ↔ name ∈ defined')
    (hawaited : ∀ name, name ∈ awaited ↔ name ∈ awaited') :
    weave composite member before after defined awaited = weave composite member before after defined' awaited' := by
  have hcall : callOf defined awaited = callOf defined' awaited' := by
    funext phase scope name
    have hd : defined.contains name = defined'.contains name :=
      Bool.eq_iff_iff.2 (by rw [List.contains_iff_mem, List.contains_iff_mem, hdefined])
    have ha : awaited.contains name = awaited'.contains name :=
      Bool.eq_iff_iff.2 (by rw [List.contains_iff_mem, List.contains_iff_mem, hawaited])
    rw [callOf, callOf, hd, ha]
  rw [weave, weave, hcall]

namespace Blueprint

/-- Contexts that know the same in another order. -/
structure Context.Rearranges (c c' : Context) : Prop where
  composite : c.composite = c'.composite
  base : c.base = c'.base
  members : c.members.Perm c'.members
  specs : c.specs.Perm c'.specs
  registered : ∀ member, c.specs.get? member = c'.specs.get? member
  before : c.before.Perm c'.before
  after : c.after.Perm c'.after

namespace Context.Rearranges

variable {c c' : Context}

theorem isEnabled (h : c.Rearranges c') (phase : Phase) (member : String) :
    c.isEnabled phase member = c'.isEnabled phase member := by
  unfold Context.isEnabled
  congr 1
  refine Bool.eq_iff_iff.2 ?_
  cases phase with
  | before => rw [List.contains_iff_mem, List.contains_iff_mem, h.before.mem_iff]
  | after => rw [List.contains_iff_mem, List.contains_iff_mem, h.after.mem_iff]

theorem plan (h : c.Rearranges c') (member : String) : c.plan member = c'.plan member := by
  unfold Context.plan
  rw [h.composite, h.isEnabled, h.isEnabled]
  refine Advice.weave_congr (fun name => (h.members.map Prod.fst).mem_iff) fun name => ?_
  simp only [MemberMap.mem_awaitedHooks, h.members.mem_iff]

/-- The method of a member is planned in the same way. -/
theorem planMethod (h : c.Rearranges c') (strict : Bool) (member : String) (definitions : List (SymbolRef × Signature)) :
    (planMethod strict c member definitions : Planner σ _) = Blueprint.planMethod strict c' member definitions := by
  unfold Blueprint.planMethod Context.needsMethod
  simp only [h.isEnabled, h.base, h.registered, h.plan]

end Context.Rearranges

/-- The methods of all members are those of each of them, whatever stands in front. -/
theorem outcome_planMethods (strict : Bool) (c : Context) (members : MemberMap) (t : Planning Unit) :
    ((planMethods strict c members).runFrom t).1 =
      (members.mapM fun e => ((planMethod strict c e.1 e.2).runFrom (⟨(), []⟩ : Planning Unit)).1) >>= fun all =>
        pure all.flatten := by
  induction members generalizing t with
  | nil => rfl
  | cons e rest ih =>
    obtain ⟨member, definitions⟩ := e
    rw [planMethods, Act.runFrom_bind, List.mapM_cons]
    obtain ⟨r, told, hquiet⟩ := quiet_planMethod (σ := Unit) strict c member definitions
    rw [hquiet, hquiet]
    cases r with
    | error e => rfl
    | ok here =>
      dsimp only
      rw [Act.runFrom_bind]
      have hrest := ih { t with notices := t.notices ++ told }
      generalize (planMethods strict c rest).runFrom { t with notices := t.notices ++ told } = done at hrest
      obtain ⟨r, u⟩ := done
      dsimp only at hrest
      subst hrest
      generalize (rest.mapM fun e => ((planMethod strict c e.1 e.2).runFrom (⟨(), []⟩ : Planning Unit)).1) = more
      cases more <;> rfl

theorem alike_planMethods {c c' : Context} (h : c.Rearranges c') (strict : Bool) :
    Alike List.Perm (planMethods strict c c.members : Planner Unit _) (planMethods strict c' c'.members : Planner Unit _) := by
  intro s t
  rw [outcome_planMethods, outcome_planMethods]
  simp only [← h.planMethod]
  exact (Outcome.both_mapM_of_perm h.members).bind fun all all' hall => hall.flatten

/-! ## Contexts -/

/-- Exactly the specs of known members are kept, if the plan goes on at all. -/
theorem alike_knownSpecs {members members' : List String} (h : ∀ name, name ∈ members ↔ name ∈ members') (strict : Bool)
    (specs : Entries CombinatorSpec) : Alike (fun kept kept' => kept = kept' ∧ kept.Sublist specs)
      (knownSpecs strict members specs : Planner Unit _) (knownSpecs strict members' specs : Planner Unit _) := by
  rw [knownSpecs_congr h]
  obtain ⟨r, told, hquiet⟩ := quiet_knownSpecs (σ := Unit) strict members' specs
  intro s t
  have hrun := hquiet s
  rw [hquiet, hquiet]
  cases r with
  | error e => trivial
  | ok kept =>
    refine ⟨rfl, ?_⟩
    rw [(knownSpecs_eq_ok hrun).1]
    exact List.filter_sublist

variable {p : Provider Unit} {d : Defaults}

theorem alike_planContext {q q' : Request} (hname : q.name = q'.name) (hcombinators : q.combinators = q'.combinators)
    (hbefore : q.before = q'.before) (hafter : q.after = q'.after) {x x' : Mix} (hbase : x.base = x'.base)
    (hx : x.participants.Perm x'.participants) (strict : Bool) {m m' : MemberMap} (hm : m.Perm m') :
    Alike (fun c c' => c.Rearranges c' ∧ c.members = m ∧ c'.members = m') (planContext p d strict q x m)
      (planContext p d strict q' x' m') := by
  have hmembers : ∀ name, name ∈ m.keys ↔ name ∈ m'.keys := fun name => (hm.map Prod.fst).mem_iff
  have hplain : m.plain.Perm m'.plain := (hm.map Prod.fst).filter _
  unfold planContext
  rw [hname, hcombinators, hbefore, hafter, CombinatorSpec.parseAll_congr hx]
  have hparse : Alike (fun specs specs' : Entries CombinatorSpec => specs = specs' ∧ specs.keys.Nodup)
      (Planner.ask (CombinatorSpec.parseAll p x'.participants q'.combinators))
      (Planner.ask (CombinatorSpec.parseAll p x'.participants q'.combinators)) := by
    intro s t
    rw [Planner.runFrom_ask, Planner.runFrom_ask]
    generalize hrun : (CombinatorSpec.parseAll p x'.participants q'.combinators).runFrom t.provider = done
    obtain ⟨r, u⟩ := done
    cases r with
    | error e => trivial
    | ok specs => exact ⟨rfl, CombinatorSpec.nodup_parseAll hrun⟩
  refine hparse.bind fun specs specs' hspecs => ?_
  obtain ⟨rfl, hnodup⟩ := hspecs
  refine (alike_knownSpecs hmembers strict specs).bind fun known known' hknown => ?_
  obtain ⟨rfl, hsublist⟩ := hknown
  have hdistinct : known.keys.Nodup := hnodup.sublist (hsublist.map Prod.fst)
  refine (alike_ofExcept (Outcome.both_mapError (Cutpoints.both_expand hplain _) _)).bind fun names names' hnames => ?_
  refine (Cutpoints.alike_usable strict .before hmembers hnames).bind fun before before' hbefore => ?_
  refine (alike_ofExcept (Outcome.both_mapError (Cutpoints.both_expand hplain _) _)).bind fun names names' hnames => ?_
  refine (Cutpoints.alike_usable strict .after hmembers hnames).bind fun after after' hafter => alike_pure ⟨?_, rfl, rfl⟩
  have hget : ∀ member, (withDefaults d m.keys .after after (withDefaults d m.keys .before before known)).get? member =
      (withDefaults d m'.keys .after after' (withDefaults d m'.keys .before before' known)).get? member := by
    intro member
    simp only [get?_withDefaults, hmembers, (hbefore.map (Advice.hook .before)).mem_iff,
      (hafter.map (Advice.hook .after)).mem_iff]
  exact
    { composite := rfl
      base := hbase
      members := hm
      specs := Entries.perm_of_get?_eq (nodup_withDefaults d _ _ _ (nodup_withDefaults d _ _ _ hdistinct))
        (nodup_withDefaults d _ _ _ (nodup_withDefaults d _ _ _ hdistinct)) hget
      registered := hget
      before := hbefore
      after := hafter }

/-! ## Symbols -/

theorem exists_specsByPath {specs : Entries CombinatorSpec} {f : String} :
    (∃ spec, (specsByPath specs).get? f = some spec) ↔ ∃ e ∈ specs, e.2.function.path = f := by
  constructor
  · rintro ⟨spec, h⟩
    obtain ⟨hpath, member, hmem⟩ := path_of_specsByPath h
    exact ⟨_, hmem, hpath⟩
  · rintro ⟨e, he, rfl⟩
    have hkey : e.2.function.path ∈ (specs.map fun e => (e.2.function.path, e.2)).map Prod.fst :=
      List.mem_map.2 ⟨_, List.mem_map_of_mem he, rfl⟩
    obtain ⟨spec, hspec, -⟩ := Entries.exists_get?_ofList hkey
    exact ⟨spec, hspec⟩

/-- The claim of a method is that of the function that it joins its results with, if some spec has the function's path. -/
theorem exists_combinatorClaim {specs : Entries CombinatorSpec} {m : MethodDef} :
    (∃ claims, combinatorClaim specs m = .ok claims) ↔
      ∀ f targets, m.core = .combine f targets → ∃ e ∈ specs, e.2.function.path = f := by
  unfold combinatorClaim
  cases m.core with
  | call target => simp
  | combine f targets =>
    simp only [Core.combine.injEq, and_imp, ← exists_specsByPath]
    cases hget : (specsByPath specs).get? f <;> simp [hget]

theorem path_of_combinatorClaim {specs : Entries CombinatorSpec} {m : MethodDef} {claims : Claims}
    (h : combinatorClaim specs m = .ok claims) (path : String) :
    (∃ c ∈ claims, c.1.path = path) ↔ ∃ targets, m.core = .combine path targets := by
  unfold combinatorClaim at h
  cases hcore : m.core with
  | call target =>
    rw [hcore] at h
    cases h
    simp
  | combine f targets =>
    rw [hcore] at h
    dsimp only at h
    cases hget : (specsByPath specs).get? f with
    | none =>
      rw [hget] at h
      cases h
    | some spec =>
      rw [hget] at h
      cases h
      simp [(path_of_specsByPath hget).1]

/-- The functions that methods join their results with are claimed under the same paths. -/
theorem both_combinatorClaims {specs specs' : Entries CombinatorSpec} (hspecs : specs.Perm specs')
    {methods methods' : List MethodDef} (hmethods : methods.Perm methods') :
    Both (fun claims claims' => ∀ path, (∃ c ∈ claims, c.1.path = path) ↔ ∃ c ∈ claims', c.1.path = path)
      (combinatorClaims specs methods) (combinatorClaims specs' methods') := by
  have hpaths : ∀ {specs : Entries CombinatorSpec} {methods : List MethodDef} {parts : List Claims},
      methods.mapM (combinatorClaim specs) = .ok parts → ∀ path,
        (∃ c ∈ parts.flatten, c.1.path = path) ↔ ∃ m ∈ methods, ∃ targets, m.core = .combine path targets := by
    intro specs methods parts h path
    rw [← Outcome.exists_mem_iff_of_mapM h fun m _ claims hm => path_of_combinatorClaim hm path]
    simp only [List.mem_flatten]
    grind
  have hok : ∀ m ∈ methods', (∃ claims, combinatorClaim specs m = .ok claims) ↔
      ∃ claims, combinatorClaim specs' m = .ok claims := by
    intro m _
    simp only [exists_combinatorClaim, hspecs.mem_iff]
  unfold combinatorClaims
  cases hx : methods.mapM (combinatorClaim specs) with
  | ok parts =>
    have hall : ∀ m ∈ methods', ∃ claims, combinatorClaim specs' m = .ok claims := by
      intro m hm
      obtain ⟨claims, -, h⟩ := Outcome.exists_mem_of_forall₂ (Outcome.mapM_eq_ok.1 hx) (hmethods.mem_iff.2 hm)
      exact (hok m hm).1 ⟨claims, h⟩
    obtain ⟨parts', hy⟩ := Outcome.exists_mapM_eq_ok hall
    rw [hy]
    intro path
    rw [hpaths hx, hpaths hy]
    simp only [hmethods.mem_iff]
  | error e =>
    cases hy : methods'.mapM (combinatorClaim specs') with
    | error e' => trivial
    | ok parts' =>
      have hall : ∀ m ∈ methods, ∃ claims, combinatorClaim specs m = .ok claims := by
        intro m hm
        obtain ⟨claims, -, h⟩ := Outcome.exists_mem_of_forall₂ (Outcome.mapM_eq_ok.1 hy) (hmethods.mem_iff.1 hm)
        exact (hok m (hmethods.mem_iff.1 hm)).2 ⟨claims, h⟩
      obtain ⟨parts, hparts⟩ := Outcome.exists_mapM_eq_ok hall
      rw [hx] at hparts
      cases hparts

end Blueprint

end Amalgam
