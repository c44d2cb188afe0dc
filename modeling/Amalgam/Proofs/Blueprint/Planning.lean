import Amalgam.Blueprint.Build
import Mathlib.Data.List.Nodup

/-!
# The methods of a plan

Planning the methods comes to an equation: a member that needs a method gets the one that `Blueprint.Context.methodFor` puts
together of its definitions (`Blueprint.planMethods_eq`), and the provider is not asked. The method calls those contributors
that `Core.dispatch` selects, and what holds of each method follows (`MethodDef.PlannedFrom`).
-/

namespace Amalgam

variable {σ : Type}

namespace Planner

variable {α : Type} {t t' : Planning σ}

@[simp] theorem runFrom_note (n : Notice) (t : Planning σ) :
    (note n).runFrom t = (.ok ⟨⟩, { t with notices := t.notices ++ [n] }) := rfl

theorem runFrom_ask (question : Act σ α) (t : Planning σ) :
    (ask question).runFrom t =
      ((question.runFrom t.provider).1, { t with provider := (question.runFrom t.provider).2 }) := rfl

theorem ask_eq_ok {question : Act σ α} {a : α} (h : (ask question).runFrom t = (.ok a, t')) :
    question.runFrom t.provider = (.ok a, t'.provider) := by
  rw [runFrom_ask, Prod.mk.injEq] at h
  obtain ⟨h, rfl⟩ := h
  exact Prod.ext h rfl

theorem ask_bind {β : Type} (x : Act σ α) (f : α → Act σ β) : ask (x >>= f) = ask x >>= fun a => ask (f a) := by
  funext t
  show (ask (x >>= f)).runFrom t = (ask x >>= fun a => ask (f a)).runFrom t
  rw [Act.runFrom_bind, runFrom_ask, runFrom_ask, Act.runFrom_bind]
  generalize x.runFrom t.provider = done
  obtain ⟨r, s⟩ := done
  cases r <;> rfl

theorem mapM_ask {β : Type} (f : α → Act σ β) (as : List α) : (as.mapM fun a => ask (f a)) = ask (as.mapM f) := by
  induction as with
  | nil => rfl
  | cons a as ih =>
    rw [List.mapM_cons, List.mapM_cons, ask_bind, ih]
    congr 1
    funext b
    exact (ask_bind (as.mapM f) fun rest => pure (b :: rest)).symm

/-- What meets an unknown name and goes on is a lenient plan, and it leaves the provider alone. -/
theorem unknown_eq_ok {strict : Bool} {cause : Unknown} {u : Unit}
    (h : (unknown strict cause).runFrom t = (.ok u, t')) : strict = false ∧ t'.provider = t.provider := by
  unfold unknown at h
  cases strict with
  | true => cases h
  | false =>
    rw [if_neg (by decide), runFrom_note] at h
    cases h
    exact ⟨rfl, rfl⟩

end Planner

/-! ## The calls of one member -/

/-- One contributor is simply called; the results of several are joined. -/
def Core.joining (f member : String) (first : SymbolRef) : List SymbolRef → Core
  | [] => .call ⟨first.path, member⟩
  | rest => .combine f ((first :: rest).map fun r => ⟨r.path, member⟩)

/--
What a member calls of its contributors. Without a combinator it is the first of them; with one it is all of them, or those
that an order names, in that order. An order that names none of them counts for nothing.
-/
def Core.dispatch (member : String) (first : SymbolRef) (rest : List SymbolRef) : Option CombinatorSpec → Core
  | none => .call ⟨first.path, member⟩
  | some s =>
    match s.order with
    | none => joining s.function.path member first rest
    | some order =>
      match order.filter fun r => ((first :: rest).map SymbolRef.path).contains r.path with
      | [] => .call ⟨first.path, member⟩
      | chosen :: more => joining s.function.path member chosen more

theorem MethodDef.coreOf_some (member : String) (f : SymbolRef) (first : SymbolRef) (rest : List SymbolRef) :
    coreOf member (first :: rest) (some f) = some (.joining f.path member first rest) := by
  cases rest <;> rfl

theorem MethodDef.coreOf_none (member : String) (first : SymbolRef) (rest : List SymbolRef) :
    coreOf member (first :: rest) none = some (.call ⟨first.path, member⟩) := by
  cases rest <;> rfl

namespace Core

variable {member : String} {first : SymbolRef} {rest : List SymbolRef} {spec : Option CombinatorSpec}

theorem dispatch_of_unordered {s : CombinatorSpec} (h : s.order = none) :
    dispatch member first rest (some s) = joining s.function.path member first rest := by
  simp only [dispatch, h]

theorem targets_joining (f member : String) (first : SymbolRef) (rest : List SymbolRef) :
    (joining f member first rest).targets = (first :: rest).map fun r => ⟨r.path, member⟩ := by
  cases rest <;> rfl

/-- Whatever is selected, there is a call, and all calls are of the member and of its contributors. -/
theorem targets_dispatch (member : String) (first : SymbolRef) (rest : List SymbolRef) (spec : Option CombinatorSpec) :
    (dispatch member first rest spec).targets ≠ [] ∧ ∀ target ∈ (dispatch member first rest spec).targets,
      target.member = member ∧ ∃ r ∈ first :: rest, target.contributor = r.path := by
  have hcalls : ∀ rs : List SymbolRef, (∀ r ∈ rs, ∃ r' ∈ first :: rest, r.path = r'.path) →
      ∀ target ∈ rs.map fun r => (⟨r.path, member⟩ : MemberCall),
        target.member = member ∧ ∃ r ∈ first :: rest, target.contributor = r.path := by
    intro rs hrs target htarget
    obtain ⟨r, hr, rfl⟩ := List.mem_map.1 htarget
    exact ⟨rfl, hrs r hr⟩
  have hfirst := hcalls [first] fun r hr => ⟨first, List.mem_cons_self, by rw [List.mem_singleton.1 hr]⟩
  unfold dispatch
  split
  · exact ⟨List.cons_ne_nil _ _, hfirst⟩
  split
  · rw [targets_joining]
    exact ⟨List.cons_ne_nil _ _, hcalls _ fun r hr => ⟨r, hr, rfl⟩⟩
  split
  · exact ⟨List.cons_ne_nil _ _, hfirst⟩
  · rename_i order _ chosen more hchosen
    rw [targets_joining]
    refine ⟨List.cons_ne_nil _ _, hcalls _ fun r hr => ?_⟩
    rw [← hchosen] at hr
    obtain ⟨r', hr', hsame⟩ := List.mem_map.1 (List.contains_iff_mem.1 (List.mem_filter.1 hr).2)
    exact ⟨r', hr', hsame.symm⟩

/-- What joins the results is the function of the combinator. -/
theorem function_of_dispatch {f : String} {targets : List MemberCall}
    (h : dispatch member first rest spec = .combine f targets) : ∃ s, spec = some s ∧ f = s.function.path := by
  have hjoining : ∀ {g : String} {r : SymbolRef} {rs : List SymbolRef}, joining g member r rs = .combine f targets → f = g := by
    intro g r rs h
    cases rs <;> cases h
    rfl
  unfold dispatch at h
  split at h
  · cases h
  rename_i s
  refine ⟨s, rfl, ?_⟩
  split at h
  · exact hjoining h
  split at h
  · cases h
  · exact hjoining h

end Core

/-- The contributors that are resolved for a member are those it is to call. -/
theorem CombinatorSpec.coreOf_resolve {member : String} {first : SymbolRef} {rest : List SymbolRef}
    {spec : Option CombinatorSpec} {r : Option CombinatorSpec × List SymbolRef} {t t' : Planning σ}
    (h : (resolve member (first :: rest) spec).runFrom t = (.ok r, t')) :
    MethodDef.coreOf member r.2 (r.1.map CombinatorSpec.function) = some (.dispatch member first rest spec) ∧
      t'.provider = t.provider := by
  unfold resolve at h
  cases spec with
  | none =>
    cases h
    exact ⟨MethodDef.coreOf_none member first rest, rfl⟩
  | some s =>
    cases horder : s.order with
    | none =>
      simp only [horder] at h
      simp only [Core.dispatch, horder]
      cases h
      exact ⟨MethodDef.coreOf_some member s.function first rest, rfl⟩
    | some order =>
      simp only [horder] at h
      simp only [Core.dispatch, horder]
      generalize (order.filter fun r => ((first :: rest).map SymbolRef.path).contains r.path) = ordered at h ⊢
      cases ordered with
      | nil =>
        obtain ⟨_, u, hu, h⟩ := Act.bind_eq_ok.1 h
        cases hu
        cases h
        exact ⟨MethodDef.coreOf_none member first rest, rfl⟩
      | cons chosen more =>
        cases h
        exact ⟨MethodDef.coreOf_some member s.function chosen more, rfl⟩

/-! ## The hooks of one member -/

/-- What is left of hooks that must not be awaited. -/
theorem Blueprint.dropAwaited_eq_ok {strict : Bool} {member : String} {calls kept : List Advice.Call}
    {t t' : Planning σ} (h : (dropAwaited strict member calls).runFrom t = (.ok kept, t')) :
    kept = calls.filter (fun c => !c.isAsync) ∧ t'.provider = t.provider := by
  induction calls generalizing kept t with
  | nil =>
    cases h
    exact ⟨rfl, rfl⟩
  | cons call rest ih =>
    unfold dropAwaited at h
    by_cases hc : call.isAsync = true
    · rw [if_pos hc] at h
      obtain ⟨_, u, hu, h⟩ := Act.bind_eq_ok.1 h
      obtain ⟨hk, ht⟩ := ih h
      rw [List.filter_cons_of_neg (by simp [hc])]
      exact ⟨hk, ht.trans (Planner.unknown_eq_ok hu).2⟩
    · rw [if_neg hc] at h
      obtain ⟨more, u, hu, h⟩ := Act.bind_eq_ok.1 h
      cases h
      obtain ⟨hk, ht⟩ := ih hu
      rw [List.filter_cons_of_pos (by simp [hc]), hk]
      exact ⟨rfl, ht⟩

/-- Hooks have no hooks of their own. -/
theorem Advice.weave_of_isHook {composite member : String} {before after : Bool} {defined awaited : List String}
    (h : isHook member = true) :
    (weave composite member before after defined awaited).before = [] ∧
      (weave composite member before after defined awaited).after = [] := by
  unfold weave
  rw [if_pos h]
  exact ⟨rfl, rfl⟩

theorem Blueprint.usablePlan_eq_ok {strict isAsync : Bool} {member : String} {plan kept : Advice.Plan}
    {t t' : Planning σ} (h : (usablePlan strict member isAsync plan).runFrom t = (.ok kept, t')) :
    kept.memberId = plan.memberId ∧ kept.before = plan.before.filter (fun c => isAsync || !c.isAsync) ∧
      kept.after = plan.after.filter (fun c => isAsync || !c.isAsync) ∧ t'.provider = t.provider := by
  unfold usablePlan at h
  cases isAsync with
  | true =>
    cases h
    simp
  | false =>
    rw [if_neg (by decide)] at h
    obtain ⟨before, u, hbefore, h⟩ := Act.bind_eq_ok.1 h
    obtain ⟨after, v, hafter, h⟩ := Act.bind_eq_ok.1 h
    cases h
    obtain ⟨rfl, hu⟩ := dropAwaited_eq_ok hbefore
    obtain ⟨rfl, hv⟩ := dropAwaited_eq_ok hafter
    exact ⟨rfl, by simp, by simp, hv.trans hu⟩

theorem Advice.memberId_weave (composite member : String) (before after : Bool) (defined awaited : List String) :
    (weave composite member before after defined awaited).memberId = memberId composite member := by
  unfold weave
  split <;> rfl

/-! ## The methods -/

namespace Blueprint

/-- The method of a member, given the first of its definitions and the others. -/
def Context.methodFor (c : Context) (member : String) (first : SymbolRef × Signature)
    (rest : List (SymbolRef × Signature)) : MethodDef where
  name := member
  memberId := Advice.memberId c.composite member
  signature := first.2
  reference := first.1.path
  core := .dispatch member first.1 (rest.map Prod.fst) (c.specs.get? member)
  before := (c.plan member).before.filter fun call => first.2.isAsync || !call.isAsync
  after := (c.plan member).after.filter fun call => first.2.isAsync || !call.isAsync

/-- The method of a member, if it needs one. -/
def Context.methodsOf (c : Context) (member : String) : List (SymbolRef × Signature) → List MethodDef
  | [] => []
  | first :: rest => if c.needsMethod member ((first :: rest).map Prod.fst) then [c.methodFor member first rest] else []

/-- Planning a member gives its method, if it needs one. -/
theorem planMethod_eq {strict : Bool} {c : Context} {member : String} {definitions : List (SymbolRef × Signature)}
    {ms : List MethodDef} {t t' : Planning σ} (h : (planMethod strict c member definitions).runFrom t = (.ok ms, t')) :
    ms = c.methodsOf member definitions ∧ t'.provider = t.provider := by
  unfold planMethod at h
  unfold Context.methodsOf
  cases definitions with
  | nil =>
    cases h
    exact ⟨rfl, rfl⟩
  | cons d rest =>
    obtain ⟨reference, signature⟩ := d
    dsimp only at h ⊢
    by_cases hneeds : c.needsMethod member (((reference, signature) :: rest).map Prod.fst) = true
    · rw [if_pos hneeds]
      rw [hneeds, if_neg (by decide)] at h
      obtain ⟨⟨spec, ordered⟩, u, hresolve, h⟩ := Act.bind_eq_ok.1 h
      obtain ⟨plan, v, hplan, h⟩ := Act.bind_eq_ok.1 h
      obtain ⟨m, w, hm, h⟩ := Act.bind_eq_ok.1 h
      rw [Act.runFrom_ofExcept, Prod.mk.injEq] at hm
      obtain ⟨hm, rfl⟩ := hm
      cases h
      obtain ⟨hcore, hu⟩ := CombinatorSpec.coreOf_resolve hresolve
      obtain ⟨hid, hbefore, hafter, hv⟩ := usablePlan_eq_ok hplan
      unfold MethodDef.synthesize at hm
      rw [hcore] at hm
      cases hm
      refine ⟨?_, hv.trans hu⟩
      rw [Context.methodFor, hid, hbefore, hafter, Context.plan, Advice.memberId_weave]
      by_cases hhook : Advice.isHook member = true
      · have hnone : (c.plan member).before = [] ∧ (c.plan member).after = [] := Advice.weave_of_isHook hhook
        rw [Context.plan] at hnone
        simp [hhook, hnone.1, hnone.2]
      · simp [hhook]
    · rw [if_neg hneeds]
      rw [Bool.not_eq_true] at hneeds
      rw [hneeds] at h
      cases h
      exact ⟨rfl, rfl⟩

/-- The methods of a plan are those of its members, one after another. -/
theorem planMethods_eq {strict : Bool} {c : Context} {members : MemberMap} {ms : List MethodDef} {t t' : Planning σ}
    (h : (planMethods strict c members).runFrom t = (.ok ms, t')) :
    (ms = members.flatMap fun e => c.methodsOf e.1 e.2) ∧ t'.provider = t.provider := by
  induction members generalizing ms t with
  | nil =>
    cases h
    exact ⟨rfl, rfl⟩
  | cons e rest ih =>
    obtain ⟨here, u, hhere, h⟩ := Act.bind_eq_ok.1 h
    obtain ⟨more, v, hmore, h⟩ := Act.bind_eq_ok.1 h
    cases h
    obtain ⟨rfl, hu⟩ := planMethod_eq hhere
    obtain ⟨rfl, hv⟩ := ih hmore
    exact ⟨rfl, hv.trans hu⟩

namespace Context

variable {c : Context} {member : String} {definitions : List (SymbolRef × Signature)} {m : MethodDef}

/-- A method that is planned of a member goes by the first of its definitions. -/
theorem mem_methodsOf : m ∈ c.methodsOf member definitions ↔ ∃ first rest, definitions = first :: rest ∧
    c.needsMethod member (definitions.map Prod.fst) = true ∧ m = c.methodFor member first rest := by
  constructor
  · intro h
    cases definitions with
    | nil => cases h
    | cons first rest =>
      rw [methodsOf] at h
      split at h
      · rename_i hneeds
        exact ⟨first, rest, rfl, hneeds, List.mem_singleton.1 h⟩
      · cases h
  · rintro ⟨first, rest, rfl, hneeds, rfl⟩
    rw [methodsOf, if_pos hneeds]
    exact List.mem_singleton_self _

theorem name_of_mem_methodsOf (h : m ∈ c.methodsOf member definitions) : m.name = member := by
  obtain ⟨first, rest, -, -, rfl⟩ := mem_methodsOf.1 h
  rfl

/-- Each member with definitions that needs a method has one, and no other does. -/
theorem names_flatMap_methodsOf (c : Context) (members : MemberMap) :
    (members.flatMap fun e => c.methodsOf e.1 e.2).map MethodDef.name =
      (members.filter fun e => !e.2.isEmpty && c.needsMethod e.1 (e.2.map Prod.fst)).map Prod.fst := by
  induction members with
  | nil => rfl
  | cons e rest ih =>
    obtain ⟨member, definitions⟩ := e
    rw [List.flatMap_cons, List.map_append, ih, List.filter_cons]
    cases definitions with
    | nil => rfl
    | cons first others =>
      simp only [methodsOf, List.isEmpty_cons, Bool.not_false, Bool.true_and]
      split <;> rfl

end Context

end Blueprint

/-- How a method goes back to the definitions of its member. -/
structure MethodDef.PlannedFrom (c : Blueprint.Context) (m : MethodDef) (definitions : List (SymbolRef × Signature)) :
    Prop where
  memberId : m.memberId = Advice.memberId c.composite m.name
  reference : ∃ r rest, definitions = (r, m.signature) :: rest ∧ m.reference = r.path
  nonempty : m.core.targets ≠ []
  targets : ∀ target ∈ m.core.targets, target.member = m.name ∧ ∃ d ∈ definitions, target.contributor = d.1.path
  combinator : ∀ f ts, m.core = .combine f ts → ∃ spec, c.specs.get? m.name = some spec ∧ f = spec.function.path
  before : m.before = (c.plan m.name).before.filter fun call => m.signature.isAsync || !call.isAsync
  after : m.after = (c.plan m.name).after.filter fun call => m.signature.isAsync || !call.isAsync

/-- The method of a member goes back to its definitions. -/
theorem Blueprint.Context.plannedFrom_methodFor (c : Context) (member : String) (first : SymbolRef × Signature)
    (rest : List (SymbolRef × Signature)) : (c.methodFor member first rest).PlannedFrom c (first :: rest) := by
  obtain ⟨hne, htargets⟩ := Core.targets_dispatch member first.1 (rest.map Prod.fst) (c.specs.get? member)
  exact
    { memberId := rfl
      reference := ⟨first.1, rest, rfl, rfl⟩
      nonempty := hne
      targets := fun target htarget => by
        obtain ⟨hmember, r, hr, hpath⟩ := htargets target htarget
        rw [← List.map_cons] at hr
        obtain ⟨d, hd, rfl⟩ := List.mem_map.1 hr
        exact ⟨hmember, d, hd, hpath⟩
      combinator := fun _ _ hcore => Core.function_of_dispatch hcore
      before := rfl
      after := rfl }

theorem Blueprint.Context.plannedFrom_of_mem {c : Context} {members : MemberMap} {m : MethodDef}
    (h : m ∈ members.flatMap fun e => c.methodsOf e.1 e.2) :
    ∃ definitions, (m.name, definitions) ∈ members ∧ m.PlannedFrom c definitions := by
  obtain ⟨e, he, hm⟩ := List.mem_flatMap.1 h
  obtain ⟨first, rest, hdefinitions, -, rfl⟩ := mem_methodsOf.1 hm
  exact ⟨first :: rest, hdefinitions ▸ he, c.plannedFrom_methodFor e.1 first rest⟩

/-- What is planned of one phase: a hook of all members and one of the member, each at most once. -/
structure MethodDef.Hooks (m : MethodDef) (phase : Phase) (general special : Option Advice.Call) : Prop where
  general : ∀ call ∈ general, call.hook = Advice.catchAll phase ∧ call.scope = .catchAll ∧ m.name ≠ Advice.all
  special : ∀ call ∈ special, call.hook = Advice.hook phase m.name ∧ call.scope = .member ∧ m.name ≠ Advice.all

theorem Advice.exists_callOf (defined awaited : List String) (phase : Phase) (scope : Scope) (name : String)
    (keep : Call → Bool) : ∃ call : Option Call, (callOf defined awaited phase scope name).filter keep = call.toList ∧
      ∀ c ∈ call, c.hook = name ∧ c.scope = scope := by
  unfold callOf
  split
  · rw [List.filter_cons, List.filter_nil]
    split
    · refine ⟨some _, rfl, ?_⟩
      rintro c ⟨⟩
      exact ⟨rfl, rfl⟩
    · exact ⟨none, rfl, by simp⟩
  · exact ⟨none, rfl, by simp⟩

theorem MethodDef.noHooks (m : MethodDef) (phase : Phase) : m.Hooks phase none none :=
  ⟨by simp, by simp⟩

/-- The hooks of a phase that are kept, if members receive advice of it. -/
theorem MethodDef.exists_hooks (m : MethodDef) (phase : Phase) (hname : m.name ≠ Advice.all) (defined awaited : List String)
    (keep : Advice.Call → Bool) : ∃ general special, m.Hooks phase general special ∧
      (Advice.callOf defined awaited phase .catchAll (Advice.catchAll phase)).filter keep = general.toList ∧
      (Advice.callOf defined awaited phase .member (Advice.hook phase m.name)).filter keep = special.toList := by
  obtain ⟨general, hgeneral, hg⟩ := Advice.exists_callOf defined awaited phase .catchAll (Advice.catchAll phase) keep
  obtain ⟨special, hspecial, hs⟩ := Advice.exists_callOf defined awaited phase .member (Advice.hook phase m.name) keep
  refine ⟨general, special, ⟨fun call hc => ?_, fun call hc => ?_⟩, hgeneral, hspecial⟩
  · exact ⟨(hg call hc).1, (hg call hc).2, hname⟩
  · exact ⟨(hs call hc).1, (hs call hc).2, hname⟩

/-- Before a member the general hook is called first, and after it last. -/
theorem MethodDef.PlannedFrom.hooks {c : Blueprint.Context} {m : MethodDef}
    {definitions : List (SymbolRef × Signature)} (h : m.PlannedFrom c definitions) :
    (∃ general special, m.Hooks .before general special ∧ m.before = general.toList ++ special.toList) ∧
      ∃ general special, m.Hooks .after general special ∧ m.after = special.toList ++ general.toList := by
  have henabled : ∀ phase, c.isEnabled phase m.name = true → m.name ≠ Advice.all := by
    intro phase henabled heq
    rw [heq] at henabled
    cases henabled
  rw [h.before, h.after]
  by_cases hhook : Advice.isHook m.name = true
  · rw [Blueprint.Context.plan, (Advice.weave_of_isHook hhook).1, (Advice.weave_of_isHook hhook).2]
    exact ⟨⟨none, none, m.noHooks _, rfl⟩, none, none, m.noHooks _, rfl⟩
  unfold Blueprint.Context.plan Advice.weave
  rw [if_neg hhook]
  constructor
  · by_cases hbefore : c.isEnabled .before m.name = true
    · obtain ⟨general, special, hooks, hg, hs⟩ := m.exists_hooks .before (henabled _ hbefore) c.members.keys
        c.members.awaitedHooks fun call => m.signature.isAsync || !call.isAsync
      refine ⟨general, special, hooks, ?_⟩
      rw [if_pos hbefore, List.filter_append, hg, hs]
    · rw [if_neg hbefore]
      exact ⟨none, none, m.noHooks _, rfl⟩
  · by_cases hafter : c.isEnabled .after m.name = true
    · obtain ⟨general, special, hooks, hg, hs⟩ := m.exists_hooks .after (henabled _ hafter) c.members.keys
        c.members.awaitedHooks fun call => m.signature.isAsync || !call.isAsync
      refine ⟨general, special, hooks, ?_⟩
      rw [if_pos hafter, List.filter_append, hg, hs]
    · rw [if_neg hafter]
      exact ⟨none, none, m.noHooks _, rfl⟩

end Amalgam
