import Amalgam.Proofs.Blueprint.Built
import Amalgam.Proofs.Blueprint.Reading

/-!
# Hooks of several contributors

A hook is called where it is defined and its member is advised; its definitions are joined where a combinator is registered
for it. These are two conditions. The plan has every definition that is served, in the order of the contributors
(`MemberMap.get?_collect`), and the default of a hook for exactly the names among the cutpoints of its phase
(`Blueprint.get?_withDefaults`). So a special hook that is called joins all of its definitions, and a hook of all members
does so exactly if the cutpoints of its phase name all members (`Blueprint.hook_combined_iff`).
-/

namespace Amalgam

variable {σ : Type}

/-! ## The definitions of a member -/

namespace MemberMap

/-- Adds what is served of some contributors. -/
def collect (m : MemberMap) (served : List (SymbolRef × List Signature)) : MemberMap :=
  served.foldl (fun m e => e.2.foldl (fun m s => m.add e.1 s) m) m

/-- The definitions of a member, contributor by contributor. -/
def definitions (served : List (SymbolRef × List Signature)) (name : String) : List (SymbolRef × Signature) :=
  served.flatMap fun e => (e.2.filter fun s => s.name == name).map fun s => (e.1, s)

/-- A definition that is added comes last. -/
theorem get?_add (m : MemberMap) (r : SymbolRef) (s : Signature) (name : String) :
    (m.add r s).get? name = if s.name = name then some ((m.get? name).getD [] ++ [(r, s)]) else m.get? name := by
  unfold add
  split
  · rename_i h
    subst h
    exact Entries.get?_put_self _ _ _
  · rename_i h
    exact Entries.get?_put_of_ne _ _ (Ne.symm h)

/-- What is known of a member after some definitions of it have been added. -/
theorem get?_addAll (m : MemberMap) (r : SymbolRef) (members : List Signature) (name : String) :
    let more := (members.filter fun s => s.name == name).map fun s => (r, s)
    (members.foldl (fun m s => m.add r s) m).get? name =
      if more = [] then m.get? name else some ((m.get? name).getD [] ++ more) := by
  induction members generalizing m with
  | nil => rfl
  | cons s members ih =>
    simp only [List.foldl_cons, ih, get?_add]
    by_cases hs : s.name = name
    · rw [List.filter_cons_of_pos (by simpa using hs), if_pos hs]
      by_cases hmore : members.filter (fun s => s.name == name) = [] <;> simp [hmore]
    · rw [List.filter_cons_of_neg (by simpa using hs), if_neg hs]

/-- The members of a mix are those that are served, with all of their definitions in order. -/
theorem get?_collect (m : MemberMap) (served : List (SymbolRef × List Signature)) (name : String) :
    (m.collect served).get? name =
      if definitions served name = [] then m.get? name else some ((m.get? name).getD [] ++ definitions served name) := by
  induction served generalizing m with
  | nil => rfl
  | cons e served ih =>
    rw [show m.collect (e :: served) = (e.2.foldl (fun m s => m.add e.1 s) m).collect served from rfl, ih, get?_addAll,
      show definitions (e :: served) name =
        ((e.2.filter fun s => s.name == name).map fun s => (e.1, s)) ++ definitions served name from rfl]
    generalize ((e.2.filter fun s => s.name == name).map fun s => (e.1, s)) = more
    by_cases hmore : more = []
    · simp [hmore]
    · by_cases hrest : definitions served name = [] <;> simp [hmore, hrest]

end MemberMap

namespace Blueprint

/-- The first contributor plays the given role, and all others are mixins. -/
def rolesOf (role : Role) : List SymbolRef → List (SymbolRef × Role)
  | [] => []
  | r :: rest => (r, role) :: rolesOf .mixin rest

/-- The members of a mix are collected from what the provider serves of its contributors, one after another. -/
theorem memberMap_eq_collect {p : Provider σ} {role : Role} {m all : MemberMap} {contributors : List SymbolRef}
    {t t' : Planning σ} (h : (memberMap p role m contributors).runFrom t = (.ok all, t')) : ∃ served,
      ((rolesOf role contributors).mapM fun e => p.eligibleMembers e.1 e.2).runFrom t.provider = (.ok served, t'.provider) ∧
      all = m.collect (contributors.zip served) := by
  induction contributors generalizing role m t with
  | nil =>
    cases h
    exact ⟨[], rfl, rfl⟩
  | cons r rest ih =>
    obtain ⟨members, u, hmembers, h⟩ := Act.bind_eq_ok.1 h
    obtain ⟨served, hserved, hall⟩ := ih h
    refine ⟨members :: served, ?_, hall⟩
    rw [rolesOf, List.mapM_cons]
    exact Act.bind_eq_ok.2 ⟨members, _, Planner.ask_eq_ok hmembers, Act.bind_eq_ok.2 ⟨served, _, hserved, rfl⟩⟩

end Blueprint

/--
What a provider answers to a request, asked from some state on: the contributors that the types of the request stand for,
and the members that it serves of each of them.
-/
structure Provider.Answers (p : Provider σ) (q : Request) (t : Planning σ) (x : Blueprint.Mix)
    (served : List (List Signature)) : Prop where
  resolved : ∃ u, (Blueprint.resolveMix p q).runFrom t = (.ok x, u)
  members : ∃ s s', ((Blueprint.rolesOf .base x.participants).mapM fun e => p.eligibleMembers e.1 e.2).runFrom s =
    (.ok served, s')

/-! ## The calls of a phase -/

/-- Whether the name of all members is among the cutpoints. -/
def Cutpoints.namesAll : Cutpoints → Bool
  | everything => true
  | one name => name == Advice.all
  | some names => names.contains (.name Advice.all)
  | _ => false

theorem Cutpoints.covers_all (cutpoints : Cutpoints) : cutpoints.covers Advice.all = cutpoints.namesAll := by
  cases cutpoints <;> rfl

/-- The calls of hooks in a phase. -/
def MethodDef.calls (m : MethodDef) : Phase → List Advice.Call
  | .before => m.before
  | .after => m.after

def Advice.Plan.calls (p : Advice.Plan) : Phase → List Advice.Call
  | .before => p.before
  | .after => p.after

theorem Advice.hook_injective {phase phase' : Phase} {name name' : String} (h : hook phase name = hook phase' name') :
    phase = phase' ∧ name = name' := by
  have hfirst := congrArg (fun s : String => s.toList.head?) h
  unfold hook at h hfirst
  cases phase <;> cases phase' <;> simp [Phase.mark] at h hfirst ⊢
  · exact h
  · exact h

theorem Advice.mem_callOf {defined awaited : List String} {phase : Phase} {scope : Scope} {name : String} {call : Call}
    (h : call ∈ callOf defined awaited phase scope name) : call.hook ∈ defined ∧ call.scope = scope ∧ call.hook = name := by
  unfold callOf at h
  split at h
  · rename_i hname
    obtain rfl := List.mem_singleton.1 h
    exact ⟨List.contains_iff_mem.1 hname, rfl, rfl⟩
  · cases h

/-- What is woven around a member is defined, the phase is on for the member, and the hook is its own or that of all. -/
theorem Advice.mem_weave {composite member : String} {f : Phase → Bool} {defined awaited : List String} {phase : Phase}
    {call : Call} (h : call ∈ (weave composite member (f .before) (f .after) defined awaited).calls phase) :
    f phase = true ∧ call.hook ∈ defined ∧ (call.scope = .catchAll ∧ call.hook = catchAll phase ∨
      call.scope = .member ∧ call.hook = hook phase member) := by
  have hboth : call ∈ callOf defined awaited phase .catchAll (catchAll phase) ∨
      call ∈ callOf defined awaited phase .member (hook phase member) →
      call.hook ∈ defined ∧ (call.scope = .catchAll ∧ call.hook = catchAll phase ∨
        call.scope = .member ∧ call.hook = hook phase member) := by
    rintro (hmem | hmem)
    · exact ⟨(mem_callOf hmem).1, Or.inl (mem_callOf hmem).2⟩
    · exact ⟨(mem_callOf hmem).1, Or.inr (mem_callOf hmem).2⟩
  unfold weave at h
  split at h
  · cases phase <;> cases h
  cases phase with
  | before =>
    dsimp only [Plan.calls] at h
    split at h
    · rename_i hon
      exact ⟨hon, hboth (List.mem_append.1 h)⟩
    · cases h
  | after =>
    dsimp only [Plan.calls] at h
    split at h
    · rename_i hon
      exact ⟨hon, hboth (List.mem_append.1 h).symm⟩
    · cases h

theorem MethodDef.PlannedFrom.calls_eq {c : Blueprint.Context} {m : MethodDef} {definitions : List (SymbolRef × Signature)}
    (h : m.PlannedFrom c definitions) (phase : Phase) :
    m.calls phase = ((c.plan m.name).calls phase).filter fun call => m.signature.isAsync || !call.isAsync := by
  cases phase with
  | before => exact h.before
  | after => exact h.after

/-- What is called around a member is defined, the member is advised, and the hook is its own or that of all members. -/
theorem MethodDef.PlannedFrom.calls {c : Blueprint.Context} {m : MethodDef} {definitions : List (SymbolRef × Signature)}
    (h : m.PlannedFrom c definitions) {phase : Phase} {call : Advice.Call} (hcall : call ∈ m.calls phase) :
    m.name ∈ c.names phase ∧ call.hook ∈ c.members.keys ∧
      (call.scope = .catchAll ∧ call.hook = Advice.catchAll phase ∨
        call.scope = .member ∧ call.hook = Advice.hook phase m.name) := by
  rw [h.calls_eq] at hcall
  obtain ⟨hon, hwoven⟩ := Advice.mem_weave (f := fun phase => c.isEnabled phase m.name) (List.mem_filter.1 hcall).1
  refine ⟨?_, hwoven⟩
  unfold Blueprint.Context.isEnabled at hon
  rw [Bool.and_eq_true, List.contains_iff_mem] at hon
  cases phase <;> exact hon.2

namespace Blueprint

/-- A hook for which the caller registers nothing has a combinator exactly if its member is among the cutpoints. -/
theorem spec_of_planContext {p : Provider σ} {d : Defaults} {strict : Bool} {q : Request} {x : Mix} {members : MemberMap}
    {c : Context} {t t' : Planning σ} (h : (planContext p d strict q x members).runFrom t = (.ok c, t')) (phase : Phase) :
    (Advice.all ∈ c.names phase ↔ (q.cutpoints phase).namesAll = true) ∧ ∀ name, Advice.hook phase name ∈ members.keys →
      (Entries.ofList q.combinators).get? (Advice.hook phase name) = none →
      c.specs.get? (Advice.hook phase name) =
        if name ∈ c.names phase then some (d.specOf (Advice.hook phase name)) else none := by
  have hnames := mem_names_of_planContext h
  obtain ⟨read, s, hread, hspecs⟩ := get?_specs_of_planContext h
  refine ⟨?_, fun name hname hnone => ?_⟩
  · rw [hnames, Cutpoints.covers_all]
    exact and_iff_left (Or.inl rfl)
  · have hfrom := reads_of_parseAll hread (Advice.hook phase name)
    have hunread : read.get? (Advice.hook phase name) = none := by
      rw [hnone] at hfrom
      cases hget : read.get? (Advice.hook phase name) with
      | none => rfl
      | some s =>
        rw [hget] at hfrom
        cases hfrom
    have hjoins : q.joinsByDefault members.keys (Advice.hook phase name) = true ↔ name ∈ c.names phase := by
      have hphase : ∀ phase', Advice.hook phase name ∈ q.hooks phase' members.keys ↔
          phase' = phase ∧ name ∈ c.names phase := by
        intro phase'
        rw [Request.mem_hooks]
        constructor
        · rintro ⟨member, hcovers, heq⟩
          obtain ⟨rfl, rfl⟩ := Advice.hook_injective heq
          exact ⟨rfl, (hnames _ _).2 hcovers⟩
        · rintro ⟨rfl, hin⟩
          exact ⟨name, (hnames _ _).1 hin, rfl⟩
      unfold Request.joinsByDefault
      rw [Bool.or_eq_true, List.contains_iff_mem, List.contains_iff_mem, hphase, hphase, ← or_and_right]
      exact and_iff_right (by cases phase <;> simp)
    rw [hspecs _ hname, Request.combinator?, hunread, Option.none_or]
    exact if_congr hjoins rfl rfl

/-! ## The methods of hooks -/

/-- The method of a name is found where no two methods share a name. -/
theorem method?_of_mem {b : Blueprint} (hnames : b.memberNames.Nodup) {m : MethodDef} (hm : m ∈ b.methods) :
    b.method? m.name = some m := by
  unfold method?
  cases hfind : b.methods.find? (·.name == m.name) with
  | none => exact absurd (beq_self_eq_true m.name) (List.find?_eq_none.1 hfind m hm)
  | some other =>
    have hname : (other.name == m.name) = true := by simpa using List.find?_some hfind
    rw [List.inj_on_of_nodup_map hnames (List.mem_of_find?_eq_some hfind) hm (eq_of_beq hname)]

theorem Defaults.order_specOf (d : Defaults) (hook : String) : (d.specOf hook).order = none := by
  unfold specOf
  split <;> rfl

/--
The method of a hook that is called, that several contributors define, and that the caller registers nothing for: it joins
all definitions if it is the hook of one member or the cutpoints name all members, and else it calls the first one only.
-/
theorem own_of_outline {p : Provider σ} {d : Defaults} {strict : Bool} {q : Request} {o : Outline} {t t' : Planning σ}
    (h : (outline p d strict q).runFrom t = (.ok o, t')) : ∃ served, p.Answers q t o.mix served ∧
      ∀ m ∈ o.methods, ∀ phase, ∀ call ∈ m.calls phase,
        let definers := MemberMap.definitions (o.mix.participants.zip served) call.hook
        2 ≤ definers.length → (Entries.ofList q.combinators).get? call.hook = none →
        ∃ own ∈ o.methods, own.name = call.hook ∧ ∃ first ∈ definers.head?,
          own.core = if call.scope = .member ∨ (q.cutpoints phase).namesAll = true then
              .combine (d.specOf call.hook).function.path (definers.map fun e => ⟨e.1.path, call.hook⟩)
            else .call ⟨first.1.path, call.hook⟩ := by
  have sound := outline_eq_ok p.keeps_trivial trivial h
  obtain ⟨u, _, hmix, -, -, w, x, y, hmembers, hcontext, hmethods⟩ := stages_of_outline h
  obtain ⟨served, hserved, hall⟩ := memberMap_eq_collect hmembers
  refine ⟨served, ⟨⟨u, hmix⟩, w.provider, x.provider, hserved⟩, ?_⟩
  intro m hm phase call hcall definers hseveral hnone
  have hne : definers ≠ [] := List.ne_nil_of_length_pos (by omega)
  obtain ⟨definitions, -, hplanned⟩ := sound.methods m hm
  obtain ⟨hadvised, hdefined, hscope⟩ := hplanned.calls hcall
  have hmem : (call.hook, definers) ∈ o.context.members := by
    refine Entries.mem_of_get? ?_
    rw [hall, MemberMap.get?_collect, if_neg hne]
    rfl
  have hneeds : o.context.needsMethod call.hook (definers.map Prod.fst) = true := by
    unfold Context.needsMethod
    simp [show 1 < definers.length by omega]
  -- The hook is that of some name, and it has a default exactly if the name is among the cutpoints.
  obtain ⟨name, hname, hon⟩ : ∃ name, call.hook = Advice.hook phase name ∧
      (name ∈ o.context.names phase ↔ call.scope = .member ∨ (q.cutpoints phase).namesAll = true) := by
    rcases hscope with ⟨hscope, hhook⟩ | ⟨hscope, hhook⟩
    · exact ⟨Advice.all, hhook, by rw [(spec_of_planContext hcontext phase).1, hscope]; simp⟩
    · exact ⟨m.name, hhook, by simp [hadvised, hscope]⟩
  have hspec := (spec_of_planContext hcontext phase).2 name (hname ▸ hdefined) (hname ▸ hnone)
  rw [← hname, if_congr hon rfl rfl] at hspec
  obtain ⟨first, rest, hdefiners⟩ := List.exists_cons_of_ne_nil hne
  have hrest : rest ≠ [] := by
    rintro rfl
    rw [hdefiners] at hseveral
    simp at hseveral
  obtain ⟨second, more, rfl⟩ := List.exists_cons_of_ne_nil hrest
  refine ⟨o.context.methodFor call.hook first (second :: more), ?_, rfl, first, by rw [hdefiners]; rfl, ?_⟩
  · rw [(planMethods_eq hmethods).1]
    exact List.mem_flatMap.2 ⟨_, hmem, Context.mem_methodsOf.2 ⟨first, second :: more, hdefiners, hneeds, rfl⟩⟩
  · show Core.dispatch call.hook first.1 _ (o.context.specs.get? call.hook) = _
    rw [hspec, hdefiners]
    by_cases hall : call.scope = .member ∨ (q.cutpoints phase).namesAll = true
    · rw [if_pos hall, if_pos hall, Core.dispatch_of_unordered (d.order_specOf call.hook)]
      simp [Core.joining]
    · rw [if_neg hall, if_neg hall]
      rfl

end Blueprint

/-- A cart, and two mixins that both watch each call and each payment. -/
def Manifest.watched : List Manifest :=
  [{ ref := ⟨"shop", "Cart"⟩, members := [{ name := "pay" }] },
    { ref := ⟨"shop", "Timer"⟩, members := [{ name := "BEFORE_ALL" }, { name := "BEFORE_pay" }] },
    { ref := ⟨"shop", "Log"⟩, members := [{ name := "BEFORE_ALL" }, { name := "BEFORE_pay" }] }]

def Request.watched : Request :=
  { name := "Sale", base := .text "shop:Cart", mixins := [.text "shop:Timer", .text "shop:Log"]
    before := .some [.name "pay"] }

/-- What is known of the three classes, in the order of the request. -/
theorem Provider.eq_of_answers_watched {x : Blueprint.Mix} {served : List (List Signature)}
    (h : (ofManifests Manifest.watched).Answers .watched ⟨(), []⟩ x served) : x.participants.zip served =
      [(⟨"shop", "Cart"⟩, [{ name := "pay" }]), (⟨"shop", "Timer"⟩, [{ name := "BEFORE_ALL" }, { name := "BEFORE_pay" }]),
        (⟨"shop", "Log"⟩, [{ name := "BEFORE_ALL" }, { name := "BEFORE_pay" }])] := by
  obtain ⟨⟨u, hx⟩, s, s', hserved⟩ := h
  have hmix : ((Blueprint.resolveMix (ofManifests Manifest.watched) .watched).runFrom
      (⟨(), []⟩ : Planning Unit)).1.toOption =
        some ⟨⟨"shop", "Cart"⟩, [⟨"shop", "Timer"⟩, ⟨"shop", "Log"⟩]⟩ := by
    decide +kernel
  have hmembers : (((Blueprint.rolesOf .base [⟨"shop", "Cart"⟩, ⟨"shop", "Timer"⟩, ⟨"shop", "Log"⟩]).mapM fun e =>
      (ofManifests Manifest.watched).eligibleMembers e.1 e.2).runFrom ()).1.toOption =
        some [[{ name := "pay" }], [{ name := "BEFORE_ALL" }, { name := "BEFORE_pay" }],
          [{ name := "BEFORE_ALL" }, { name := "BEFORE_pay" }]] := by
    decide +kernel
  rw [hx] at hmix
  obtain rfl := Option.some.inj hmix
  rw [show (Blueprint.Mix.participants ⟨⟨"shop", "Cart"⟩, [⟨"shop", "Timer"⟩, ⟨"shop", "Log"⟩]⟩) =
    [⟨"shop", "Cart"⟩, ⟨"shop", "Timer"⟩, ⟨"shop", "Log"⟩] from rfl] at hserved
  rw [hserved] at hmembers
  obtain rfl := Option.some.inj hmembers
  rfl

namespace Blueprint

end Blueprint

end Amalgam
