import Amalgam.Proofs.Blueprint.Told

/-!
# What one more cutpoint changes

A name that is added to the cutpoints of a phase matters to one member, whose hooks of that phase it turns on, and to the hook
of that member, which it gives a combinator by default. All other members are planned from what does not change
(`Blueprint.Context.AgreesApart.methodsOf`), and so are header and fields (`Blueprint.cutpoint_local`).
-/

namespace Amalgam

variable {σ : Type}

/-- Cutpoints that cover one more name. -/
def Cutpoints.Extends (cutpoints more : Cutpoints) (name : String) : Prop :=
  ∀ other, more.covers other = (cutpoints.covers other || other == name)

namespace Cutpoints

/-- A name that is added to a list of cutpoints, anywhere, is covered besides what the list covers. -/
theorem extends_insert (before after : List CutpointName) (name : String) :
    (some (before ++ after)).Extends (some (before ++ .name name :: after)) name := by
  intro other
  rw [Bool.eq_iff_iff]
  simp [covers]
  tauto

/-- The same holds of a name where there were none. -/
theorem extends_nothing (name : String) : nothing.Extends (one name) name := by
  intro other
  show (name == other) = (false || other == name)
  rw [Bool.false_or, Bool.beq_comm]

end Cutpoints

/-- The request with other cutpoints of a phase. -/
def Request.withCutpoints (q : Request) : Phase → Cutpoints → Request
  | .before, cutpoints => { q with before := cutpoints }
  | .after, cutpoints => { q with after := cutpoints }

@[simp] theorem Request.cutpoints_withCutpoints (q : Request) (phase phase' : Phase) (cutpoints : Cutpoints) :
    (q.withCutpoints phase cutpoints).cutpoints phase' = if phase' = phase then cutpoints else q.cutpoints phase' := by
  cases phase <;> cases phase' <;> rfl

/-- The method with other hooks of a phase. -/
def MethodDef.withCalls (m : MethodDef) : Phase → List Advice.Call → MethodDef
  | .before, calls => { m with before := calls }
  | .after, calls => { m with after := calls }

namespace Request

variable {q : Request} {phase : Phase} {cutpoints : Cutpoints} {name : String}

/-- Advice of the phase is turned on for one member at most. -/
theorem advises_withCutpoints (hextends : (q.cutpoints phase).Extends cutpoints name) {phase' : Phase} {member : String}
    (hother : phase' ≠ phase ∨ member ≠ name) :
    (q.withCutpoints phase cutpoints).advises phase' member = q.advises phase' member := by
  unfold advises
  rw [cutpoints_withCutpoints]
  by_cases hphase : phase' = phase
  · subst hphase
    rw [if_pos rfl, hextends, beq_false_of_ne (hother.resolve_left (absurd rfl)), Bool.or_false]
  · rw [if_neg hphase]

/-- One hook at most has a combinator by default that it did not have. -/
theorem joinsByDefault_withCutpoints (hextends : (q.cutpoints phase).Extends cutpoints name) {members : List String}
    {hook : String} (hother : hook ≠ Advice.hook phase name) :
    (q.withCutpoints phase cutpoints).joinsByDefault members hook = q.joinsByDefault members hook := by
  have hphase : ∀ phase', hook ∈ (q.withCutpoints phase cutpoints).hooks phase' members ↔ hook ∈ q.hooks phase' members := by
    intro phase'
    rw [mem_hooks, mem_hooks]
    refine exists_congr fun member => and_congr_left fun hhook => and_congr_left fun _ => ?_
    rw [cutpoints_withCutpoints]
    by_cases hp : phase' = phase
    · subst hp
      have hne : member ≠ name := fun heq => hother (hhook ▸ heq ▸ rfl)
      rw [if_pos rfl, hextends, beq_false_of_ne hne, Bool.or_false]
    · rw [if_neg hp]
  unfold joinsByDefault
  rw [Bool.eq_iff_iff]
  simp only [Bool.or_eq_true, List.contains_iff_mem, hphase]

end Request

/-- No member is its own hook. -/
theorem Advice.hook_ne (phase : Phase) (member : String) : hook phase member ≠ member := by
  intro heq
  have hlength := congrArg String.length heq
  rw [hook, String.length_append] at hlength
  cases phase
  · exact absurd hlength (by simp [Phase.mark])
  · exact absurd hlength (by simp [Phase.mark])

namespace Blueprint

/-- Contexts that tell apart at most whether one member receives advice of a phase, and the combinator of its hook. -/
structure Context.AgreesApart (c c' : Context) (phase : Phase) (member : String) : Prop where
  composite : c'.composite = c.composite
  base : c'.base = c.base
  members : c'.members = c.members
  enabled : ∀ phase', ∀ name ∈ c.members.keys, phase' ≠ phase ∨ name ≠ member →
    c'.isEnabled phase' name = c.isEnabled phase' name
  combinator : ∀ name ∈ c.members.keys, name ≠ Advice.hook phase member → c'.specs.get? name = c.specs.get? name

namespace Context.AgreesApart

variable {c c' : Context} {phase : Phase} {member name : String}

/-- A member that is neither the one in question nor its hook is planned in the same way. -/
theorem methodsOf (h : c.AgreesApart c' phase member) (hname : name ∈ c.members.keys) (hmember : name ≠ member)
    (hhook : name ≠ Advice.hook phase member) (definitions : List (SymbolRef × Signature)) :
    c'.methodsOf name definitions = c.methodsOf name definitions := by
  have henabled : ∀ phase', c'.isEnabled phase' name = c.isEnabled phase' name := fun phase' =>
    h.enabled phase' name hname (Or.inr hmember)
  have hplan : c'.plan name = c.plan name := by
    rw [Context.plan, Context.plan, h.composite, h.members, henabled, henabled]
  cases definitions with
  | nil => rfl
  | cons first rest =>
    have hneeds : c'.needsMethod name = c.needsMethod name := by
      funext contributors
      rw [Context.needsMethod, Context.needsMethod, henabled, henabled, h.base]
    have hmethod : c'.methodFor name first rest = c.methodFor name first rest := by
      rw [Context.methodFor, Context.methodFor, h.composite, h.combinator name hname hhook, hplan]
    rw [Context.methodsOf, Context.methodsOf, hneeds, hmethod]

/-- The member in question is planned in the same way but for its hooks of the phase. -/
theorem methodFor (h : c.AgreesApart c' phase member) (hmember : member ∈ c.members.keys) (first : SymbolRef × Signature)
    (rest : List (SymbolRef × Signature)) : c'.methodFor member first rest =
      (c.methodFor member first rest).withCalls phase ((c'.methodFor member first rest).calls phase) := by
  have hcombinator := h.combinator member hmember (Advice.hook_ne phase member).symm
  have henabled : ∀ phase', phase' ≠ phase → c'.isEnabled phase' member = c.isEnabled phase' member := fun phase' hne =>
    h.enabled phase' member hmember (Or.inl hne)
  have hplan : ∀ phase', phase' ≠ phase → (c'.plan member).calls phase' = (c.plan member).calls phase' := by
    intro phase' hne
    unfold Context.plan Advice.weave
    rw [h.composite, h.members]
    split
    · rfl
    · cases phase' <;> simp only [Advice.Plan.calls, henabled _ hne]
  unfold Context.methodFor
  rw [h.composite, hcombinator]
  cases phase with
  | before =>
    have hafter : (c'.plan member).after = (c.plan member).after := hplan .after (by decide)
    simp only [MethodDef.withCalls, MethodDef.calls, hafter]
  | after =>
    have hbefore : (c'.plan member).before = (c.plan member).before := hplan .before (by decide)
    simp only [MethodDef.withCalls, MethodDef.calls, hbefore]

end Context.AgreesApart

/-- All methods but those of the member in question and of its hook are the same. -/
theorem Context.AgreesApart.filter_methods {c c' : Context} {phase : Phase} {member : String}
    (h : c.AgreesApart c' phase member) :
    ((c.members.flatMap fun e => c'.methodsOf e.1 e.2).filter fun m => m.name != member && m.name != Advice.hook phase member) =
      (c.members.flatMap fun e => c.methodsOf e.1 e.2).filter fun m =>
        m.name != member && m.name != Advice.hook phase member := by
  rw [List.filter_flatMap, List.filter_flatMap]
  refine List.flatMap_congr fun e he => ?_
  by_cases hother : (e.1 != member && e.1 != Advice.hook phase member) = true
  · rw [Bool.and_eq_true, bne_iff_ne, bne_iff_ne] at hother
    rw [h.methodsOf (List.mem_map_of_mem he) hother.1 hother.2]
  · have hnone : ∀ c'' : Context, (c''.methodsOf e.1 e.2).filter
        (fun m => m.name != member && m.name != Advice.hook phase member) = [] := fun c'' =>
      List.filter_eq_nil_iff.2 fun m hm => by rwa [name_of_mem_methodsOf hm]
    rw [hnone, hnone]

/-- A method of the member in question is the same but for its hooks of the phase. -/
theorem Context.AgreesApart.own_method {c c' : Context} {phase : Phase} {member : String} (h : c.AgreesApart c' phase member)
    (hdistinct : c.members.keys.Nodup) {m m' : MethodDef} (hm : m ∈ c.members.flatMap fun e => c.methodsOf e.1 e.2)
    (hm' : m' ∈ c.members.flatMap fun e => c'.methodsOf e.1 e.2) (hname : m.name = member) (hname' : m'.name = member) :
    m' = m.withCalls phase (m'.calls phase) := by
  obtain ⟨e, he, hm⟩ := List.mem_flatMap.1 hm
  obtain ⟨e', he', hm'⟩ := List.mem_flatMap.1 hm'
  have hkeys : e.1 = e'.1 := by rw [← name_of_mem_methodsOf hm, ← name_of_mem_methodsOf hm', hname, hname']
  obtain rfl := List.inj_on_of_nodup_map hdistinct he he' hkeys
  obtain ⟨first, rest, hdefinitions, -, rfl⟩ := mem_methodsOf.1 hm
  obtain ⟨first', rest', hdefinitions', -, rfl⟩ := mem_methodsOf.1 hm'
  cases hdefinitions.symm.trans hdefinitions'
  obtain rfl : e.1 = member := hname
  exact h.methodFor (List.mem_map_of_mem he) first rest

variable {p : Provider σ} {d : Defaults} {strict : Bool} {q : Request} {phase : Phase} {cutpoints : Cutpoints}
  {member : String} {t t' u' : Planning σ}

/-- What the cutpoints have in common is read in the same way. -/
theorem agreesApart_of_planContext {x : Mix} {members : MemberMap} {c c' : Context}
    (hextends : (q.cutpoints phase).Extends cutpoints member)
    (h : (planContext p d strict q x members).runFrom t = (.ok c, t'))
    (h' : (planContext p d strict (q.withCutpoints phase cutpoints) x members).runFrom t = (.ok c', u')) :
    c.AgreesApart c' phase member := by
  obtain ⟨hcomposite, hbase, hmembers⟩ := planContext_eq_ok h
  obtain ⟨hcomposite', hbase', hmembers'⟩ := planContext_eq_ok h'
  obtain ⟨read, s, hread, hspecs⟩ := get?_specs_of_planContext h
  obtain ⟨read', s', hread', hspecs'⟩ := get?_specs_of_planContext h'
  have hsame : (q.withCutpoints phase cutpoints).combinators = q.combinators ∧
      (q.withCutpoints phase cutpoints).name = q.name := by
    cases phase <;> exact ⟨rfl, rfl⟩
  rw [hsame.1, hread] at hread'
  cases hread'
  exact
    { composite := by rw [hcomposite', hcomposite, hsame.2]
      base := by rw [hbase', hbase]
      members := by rw [hmembers', hmembers]
      enabled := fun phase' name hname hother => by
        rw [hmembers] at hname
        rw [isEnabled_of_planContext h' phase' hname, isEnabled_of_planContext h phase' hname,
          Request.advises_withCutpoints hextends hother]
      combinator := fun name hname hother => by
        rw [hmembers] at hname
        rw [hspecs' name hname, hspecs name hname, Request.combinator?, Request.combinator?,
          Request.joinsByDefault_withCutpoints hextends hother] }

/-- Two plans that are made of the same, but that the second has one more member among the cutpoints of a phase. -/
theorem agreesApart_of_outline {o o' : Outline} (hextends : (q.cutpoints phase).Extends cutpoints member)
    (h : (outline p d strict q).runFrom t = (.ok o, t'))
    (h' : (outline p d strict (q.withCutpoints phase cutpoints)).runFrom t = (.ok o', u')) :
    o'.header = o.header ∧ o'.fields = o.fields ∧ o.context.AgreesApart o'.context phase member ∧
      (o.methods = o.context.members.flatMap fun e => o.context.methodsOf e.1 e.2) ∧
      o'.methods = o.context.members.flatMap fun e => o'.context.methodsOf e.1 e.2 := by
  obtain ⟨-, u, v, w, x, y, hmix, hheader, hfields, hmembers, hcontext, hmethods⟩ := runs_of_outline h
  obtain ⟨-, _, _, _, _, y', hmix', hheader', hfields', hmembers', hcontext', hmethods'⟩ := runs_of_outline h'
  -- Until the cutpoints are read, both plans are the same run.
  have hname : (q.withCutpoints phase cutpoints).name = q.name := by cases phase <;> rfl
  have hresolve : resolveMix p (q.withCutpoints phase cutpoints) = resolveMix p q := by cases phase <;> rfl
  rw [hresolve, hmix, Prod.mk.injEq, Except.ok.injEq] at hmix'
  obtain ⟨hmix', rfl⟩ := hmix'
  rw [hname, ← hmix', hheader, Prod.mk.injEq, Except.ok.injEq, Prod.mk.injEq] at hheader'
  obtain ⟨⟨hheader', -⟩, rfl⟩ := hheader'
  rw [← hmix', ← hheader', hfields, Prod.mk.injEq, Except.ok.injEq] at hfields'
  obtain ⟨hfields', rfl⟩ := hfields'
  rw [← hmix', hmembers, Prod.mk.injEq, Except.ok.injEq] at hmembers'
  obtain ⟨hmembers', rfl⟩ := hmembers'
  rw [← hmix', ← hmembers'] at hcontext'
  rw [← hmembers'] at hmethods'
  exact ⟨hheader'.symm, hfields'.symm, agreesApart_of_planContext hextends hcontext hcontext',
    (planMethods_eq hmethods).1, (planMethods_eq hmethods').1⟩

/--
Two composites that are built of the same, but that the second has one more member among the cutpoints of a phase. They have
the same header and the same fields, and the same methods in the same order but for the member and its hook of the phase; and a
method of the member that both have is the same but for its hooks of the phase.
-/
theorem cutpoint_local {b b' : Blueprint} (hextends : (q.cutpoints phase).Extends cutpoints member)
    (h : (build p d strict q).runFrom t = (.ok b, t'))
    (h' : (build p d strict (q.withCutpoints phase cutpoints)).runFrom t = (.ok b', u')) :
    b'.header = b.header ∧ b'.fields = b.fields ∧
      (b'.methods.filter fun m => m.name != member && m.name != Advice.hook phase member) =
        (b.methods.filter fun m => m.name != member && m.name != Advice.hook phase member) ∧
      ∀ m ∈ b.methods, ∀ m' ∈ b'.methods, m.name = member → m'.name = member →
        m' = m.withCalls phase (m'.calls phase) := by
  obtain ⟨o, _, claims, ho, -, rfl⟩ := build_eq_ok h
  obtain ⟨o', _, claims', ho', -, rfl⟩ := build_eq_ok h'
  have hdistinct := (outline_eq_ok p.keeps_trivial trivial ho).members.distinct
  obtain ⟨hheader, hfields, hapart, hmethods, hmethods'⟩ := agreesApart_of_outline hextends ho ho'
  refine ⟨hheader, hfields, ?_, fun m hm m' hm' => ?_⟩
  · show o'.methods.filter _ = o.methods.filter _
    rw [hmethods, hmethods']
    exact hapart.filter_methods
  · exact hapart.own_method hdistinct (hmethods ▸ hm : m ∈ o.context.members.flatMap _)
      (hmethods' ▸ hm' : m' ∈ o.context.members.flatMap _)

end Blueprint

/-- A cart, a timer that takes part in payments and watches payments and sums, and a log that watches payments. -/
def Manifest.logged : List Manifest :=
  [{ ref := ⟨"shop", "Cart"⟩, members := [{ name := "pay" }, { name := "total" }] },
    { ref := ⟨"shop", "Timer"⟩, members := [{ name := "pay" }, { name := "BEFORE_pay" }, { name := "BEFORE_total" }] },
    { ref := ⟨"shop", "Log"⟩, members := [{ name := "BEFORE_pay" }] }]

def Request.logged : Request :=
  { name := "Sale", base := .text "shop:Cart", mixins := [.text "shop:Timer", .text "shop:Log"]
    before := .some [.name "total"] }

namespace Blueprint

/-- With payments among the cutpoints a payment is watched, and all else stays but for the hook of payments. -/
theorem cutpoint_local_logged : (Request.logged.cutpoints .before).Extends (.some [.name "pay", .name "total"]) "pay" ∧
    ∃ b t' b' u',
      (build (Provider.ofManifests Manifest.logged) ⟨.function 0, .function 1, .cls 2, .cls 3, .function 4⟩ true
        .logged).runFrom ⟨(), []⟩ = (.ok b, t') ∧
      (build (Provider.ofManifests Manifest.logged) ⟨.function 0, .function 1, .cls 2, .cls 3, .function 4⟩ true
        (Request.logged.withCutpoints .before (.some [.name "pay", .name "total"]))).runFrom ⟨(), []⟩ = (.ok b', u') ∧
      (b'.methods.filter fun m => m.name != "pay" && m.name != "BEFORE_pay") =
        (b.methods.filter fun m => m.name != "pay" && m.name != "BEFORE_pay") ∧
      (∃ m ∈ b.methods, m.name = "pay" ∧ m.withCalls .before [⟨"BEFORE_pay", .before, .member, false⟩] ∈ b'.methods) ∧
      (b'.method? "BEFORE_pay").map MethodDef.core ≠ (b.method? "BEFORE_pay").map MethodDef.core := by
  have hextends : (Request.logged.cutpoints .before).Extends (.some [.name "pay", .name "total"]) "pay" :=
    Cutpoints.extends_insert [] [.name "total"] "pay"
  refine ⟨hextends, ?_⟩
  generalize hrun : (build (Provider.ofManifests Manifest.logged) _ true .logged).runFrom (⟨(), []⟩ : Planning Unit) = r
  generalize hrun' : (build (Provider.ofManifests Manifest.logged) _ true (Request.withCutpoints _ _ _)).runFrom
    (⟨(), []⟩ : Planning Unit) = r'
  have hpay : (r.1.toOption.bind fun b => (b.method? "pay").map fun m => (m.name, m.before)) = some ("pay", []) := by
    rw [← hrun]
    decide +kernel
  have hpay' : (r'.1.toOption.bind fun b => (b.method? "pay").map fun m => (m.name, m.before)) =
      some ("pay", [⟨"BEFORE_pay", .before, .member, false⟩]) := by
    rw [← hrun']
    decide +kernel
  have hcores : (r'.1.toOption.bind fun b => (b.method? "BEFORE_pay").map MethodDef.core) ≠
      r.1.toOption.bind fun b => (b.method? "BEFORE_pay").map MethodDef.core := by
    rw [← hrun, ← hrun']
    decide +kernel
  obtain ⟨outcome, t'⟩ := r
  obtain ⟨outcome', u'⟩ := r'
  cases outcome with
  | error e => cases hpay
  | ok b =>
  cases outcome' with
  | error e => cases hpay'
  | ok b' =>
    obtain ⟨-, -, hothers, hown⟩ := cutpoint_local hextends hrun hrun'
    obtain ⟨m, hm, hmpay⟩ := Option.map_eq_some_iff.1 hpay
    obtain ⟨m', hm', hmpay'⟩ := Option.map_eq_some_iff.1 hpay'
    obtain ⟨hname, -⟩ := Prod.mk.inj hmpay
    obtain ⟨hname', hbefore'⟩ := Prod.mk.inj hmpay'
    have hm := List.mem_of_find?_eq_some hm
    have hm' := List.mem_of_find?_eq_some hm'
    have hsame := hown m hm m' hm' hname hname'
    rw [MethodDef.calls, hbefore'] at hsame
    exact ⟨b, t', b', u', rfl, rfl, hothers, ⟨m, hm, hname, hsame ▸ hm'⟩, hcores⟩

end Blueprint

end Amalgam
