import Amalgam.Proofs.Blueprint.Rearranging
import Amalgam.Proofs.Blueprint.Told
import Amalgam.Proofs.Source.Prelude
import Amalgam.Proofs.Source.Verdicts
import Amalgam.Proofs.World.Retelling

/-!
# The hooks around a method

Which hooks are called around a method follows from the members that are discovered: the hook has to be one of them, the
cutpoints have to enable the method, and a synchronous method cannot wait for an asynchronous hook. The first definition of a
hook says whether it is asynchronous, and that is the definition its own method takes its signature from
(`Blueprint.hooks_exact`). So code awaits nothing but in asynchronous methods (`Source.isAsync_of_awaits`).
-/

namespace Amalgam

variable {σ : Type}

/-! ## Awaiting -/

namespace Source

def Work.calls : Work → List Call
  | call c => [c]
  | combine _ cs => cs

/-- The calls of a statement. -/
def Stmt.calls : Stmt → List Call
  | observe c => [c]
  | decide c => [c]
  | leaveOn _ => []
  | keep w => w.calls
  | replaceOn _ => []
  | finish => []
  | give w => w.calls

/-- Whether some call of a body is awaited. -/
def Method.awaits (c : Method) : Bool := (c.body.flatMap Stmt.calls).any Call.isAwaited

variable {b : Blueprint} {m : MethodDef} {receiver : Option String} {c : Call}

/-- Contributors are awaited in asynchronous methods only. -/
theorem isAsync_of_mem_work {work : Work} (h : workOf b m receiver = .ok work) (hc : c ∈ work.calls)
    (hawaited : c.isAwaited = true) : m.signature.isAsync = true := by
  have hcall : ∀ {target c}, contributorCall b m.signature receiver target = .ok c → c.isAwaited = m.signature.isAsync := by
    intro target c h
    obtain ⟨owner, -, h⟩ := Outcome.bind_eq_ok.1 h
    cases h
    rfl
  unfold workOf at h
  cases hcore : m.core with
  | call target =>
    simp only [hcore] at h
    obtain ⟨c', hc', h⟩ := Outcome.bind_eq_ok.1 h
    cases h
    rw [List.mem_singleton.1 hc] at hawaited
    rw [← hcall hc', hawaited]
  | combine f targets =>
    simp only [hcore] at h
    obtain ⟨calls, hcalls, h⟩ := Outcome.bind_eq_ok.1 h
    obtain ⟨name, -, h⟩ := Outcome.bind_eq_ok.1 h
    cases h
    obtain ⟨target, -, htarget⟩ := Outcome.exists_mem_of_forall₂ (Outcome.mapM_eq_ok.1 hcalls).flip hc
    rw [← hcall htarget, hawaited]

/-- Hooks are, whether before the work or after it. -/
theorem isAsync_of_mem_hooks {owner : String} {call : Advice.Call} {stmts : List Stmt}
    (h : beforeStmts b owner m call = .ok stmts ∨ afterStmts b owner m call = .ok stmts) (hc : c ∈ stmts.flatMap Stmt.calls)
    (hawaited : c.isAwaited = true) : m.signature.isAsync = true := by
  have hhook : ∀ args, c = hookCall owner m.signature call args → m.signature.isAsync = true := by
    rintro args rfl
    exact (Bool.and_eq_true_iff.1 hawaited).2
  unfold beforeStmts afterStmts at h
  cases hscope : call.scope with
  | catchAll =>
    simp only [hscope] at h
    rcases h with h | h <;> cases h <;> exact hhook _ (List.mem_singleton.1 hc)
  | member =>
    simp only [hscope] at h
    rcases h with h | h <;> obtain ⟨cls, -, h⟩ := Outcome.bind_eq_ok.1 h <;> cases h <;>
      exact hhook _ (List.mem_singleton.1 hc)

/-- A method that awaits is an asynchronous one. -/
theorem isAsync_of_awaits {c : Method} (h : methodOf b m = .ok c) (hawaits : c.awaits = true) : c.isAsync = true := by
  rw [isAsync_of_methodOf h]
  obtain ⟨-, -, -, -, hbody⟩ := methodOf_eq_ok h
  obtain ⟨work, hwork, hbody⟩ := bodyOf_eq_ok hbody
  obtain ⟨call, hcall, hawaited⟩ := List.any_eq_true.1 hawaits
  obtain ⟨stmt, hstmt, hcall⟩ := List.mem_flatMap.1 hcall
  rcases hbody with ⟨-, hbody⟩ | ⟨-, before, after, hbefore, hafter, hbody⟩
  · rw [hbody, List.mem_singleton] at hstmt
    rw [hstmt] at hcall
    exact isAsync_of_mem_work hwork hcall hawaited
  rw [hbody, List.mem_append, List.mem_append, List.mem_append, List.mem_singleton, List.mem_singleton] at hstmt
  rcases hstmt with ((hstmt | hstmt) | hstmt) | hstmt
  · obtain ⟨stmts, hstmts, hstmt⟩ := List.mem_flatten.1 hstmt
    obtain ⟨hook, -, hhook⟩ := Outcome.exists_mem_of_forall₂ (Outcome.mapM_eq_ok.1 hbefore).flip hstmts
    exact isAsync_of_mem_hooks (Or.inl hhook) (List.mem_flatMap.2 ⟨stmt, hstmt, hcall⟩) hawaited
  · rw [hstmt] at hcall
    exact isAsync_of_mem_work hwork hcall hawaited
  · obtain ⟨stmts, hstmts, hstmt⟩ := List.mem_flatten.1 hstmt
    obtain ⟨hook, -, hhook⟩ := Outcome.exists_mem_of_forall₂ (Outcome.mapM_eq_ok.1 hafter).flip hstmts
    exact isAsync_of_mem_hooks (Or.inr hhook) (List.mem_flatMap.2 ⟨stmt, hstmt, hcall⟩) hawaited
  · rw [hstmt] at hcall
    cases hcall

end Source

/-! ## Planned hooks -/

/--
The call of a hook around a method, if there is one: some contributor defines the hook, the cutpoints enable the method, and
the method does not have to be synchronous while the first definition of the hook is not.
-/
def MethodDef.planned (m : MethodDef) (q : Request) (served : List (SymbolRef × List Signature)) (phase : Phase)
    (scope : Scope) (member : String) : List Advice.Call :=
  match (MemberMap.definitions served (Advice.hook phase member)).head? with
  | some first =>
    if q.advises phase m.name && (m.signature.isAsync || !first.2.isAsync) then
      [⟨Advice.hook phase member, phase, scope, first.2.isAsync⟩]
    else []
  | none => []

namespace MemberMap

variable {served : List (SymbolRef × List Signature)}

theorem contains_keys_collect (name : String) :
    (collect [] served).keys.contains name = (definitions served name).head?.isSome := by
  rw [keys_collect, Bool.eq_iff_iff, List.contains_iff_mem, mem_discovered]
  cases definitions served name <;> simp

/-- The first definition of a hook says whether it is asynchronous. -/
theorem contains_awaitedHooks_collect {name : String} (hhook : Advice.isHook name = true) :
    (collect [] served).awaitedHooks.contains name =
      ((definitions served name).head?.map fun first => first.2.isAsync).getD false := by
  rw [Bool.eq_iff_iff, List.contains_iff_mem, mem_awaitedHooks, collect_eq_map]
  constructor
  · rintro ⟨e, he, -, hasync, rfl⟩
    obtain ⟨name, -, rfl⟩ := List.mem_map.1 he
    exact hasync
  · intro hasync
    refine ⟨(name, definitions served name), List.mem_map_of_mem (mem_discovered.2 fun hnil => ?_), hhook, hasync, rfl⟩
    rw [hnil] at hasync
    cases hasync

end MemberMap

namespace Blueprint

variable {p : Provider σ} {d : Defaults} {q : Request} {t : Planning σ} {o : Outline} {described listed : List Manifest}
  {read : Entries CombinatorSpec}

/-- What is woven of a hook, less what cannot be awaited. -/
theorem Outline.Told.planned_eq (told : o.Told p d q t described listed read) (m : MethodDef) (phase : Phase) (scope : Scope)
    (member : String) : m.planned q (o.mix.served listed) phase scope member =
      if q.advises phase m.name then
        (Advice.callOf o.context.members.keys o.context.members.awaitedHooks phase scope (Advice.hook phase member)).filter
          fun call => m.signature.isAsync || !call.isAsync
      else [] := by
  unfold MethodDef.planned Advice.callOf
  rw [told.members, MemberMap.contains_keys_collect, MemberMap.contains_awaitedHooks_collect (Advice.isHook_hook phase member)]
  cases (MemberMap.definitions (o.mix.served listed) (Advice.hook phase member)).head? with
  | none => simp
  | some first => by_cases h : q.advises phase m.name = true <;> simp [h, List.filter_cons]

/-- The hooks of a method are those that are planned: the general one before the special one, and after it in reverse. -/
theorem Outline.Told.hooks_eq (told : o.Told p d q t described listed read) {m : MethodDef} (hm : m ∈ o.methods) :
    m.before = m.planned q (o.mix.served listed) .before .catchAll Advice.all ++
        m.planned q (o.mix.served listed) .before .member m.name ∧
      m.after = m.planned q (o.mix.served listed) .after .member m.name ++
        m.planned q (o.mix.served listed) .after .catchAll Advice.all := by
  obtain ⟨first, rest, hdefinitions, -, hplanned⟩ := told.mem_methods.1 hm
  have hname : m.name ∈ MemberMap.discovered (o.mix.served listed) :=
    MemberMap.mem_discovered.2 (by simp [hdefinitions])
  have hsignature : m.signature = first.2 := congrArg MethodDef.signature hplanned
  rw [told.planned_eq, told.planned_eq, told.planned_eq, told.planned_eq, congrArg MethodDef.before hplanned,
    congrArg MethodDef.after hplanned, hsignature]
  unfold Context.methodFor Context.plan Advice.weave
  dsimp only
  rw [told.enabled .before _ hname, told.enabled .after _ hname]
  by_cases hhook : Advice.isHook m.name = true
  · rw [if_pos hhook]
    simp [Request.advises, hhook]
  · rw [if_neg hhook]
    constructor
    · by_cases hbefore : q.advises .before m.name = true <;> simp [hbefore, List.filter_append, Advice.catchAll]
    · by_cases hafter : q.advises .after m.name = true <;> simp [hafter, List.filter_append, Advice.catchAll]

/-- A hook that is planned has a first definition, and the method can call it. -/
theorem MethodDef.mem_planned {m : MethodDef} {served : List (SymbolRef × List Signature)} {phase : Phase} {scope : Scope}
    {member : String} {call : Advice.Call} (h : call ∈ m.planned q served phase scope member) :
    ∃ first rest, MemberMap.definitions served call.hook = first :: rest ∧ first.2.isAsync = call.isAsync ∧
      (call.isAsync = true → m.signature.isAsync = true) := by
  unfold MethodDef.planned at h
  split at h
  · rename_i first hfirst
    split at h
    · rename_i hon
      obtain rfl := List.mem_singleton.1 h
      obtain ⟨rest, hrest⟩ := List.head?_eq_some_iff.1 hfirst
      rw [Bool.and_eq_true, Bool.or_eq_true, Bool.not_eq_true'] at hon
      refine ⟨first, rest, hrest, rfl, fun hasync => hon.2.resolve_right fun hsync => ?_⟩
      exact absurd (hasync.symm.trans hsync) (by decide)
    · cases h
  · cases h

theorem Outline.Told.mem_calls (told : o.Told p d q t described listed read) {m : MethodDef} (hm : m ∈ o.methods)
    {phase : Phase} {call : Advice.Call} (hcall : call ∈ m.calls phase) : ∃ first rest,
      MemberMap.definitions (o.mix.served listed) call.hook = first :: rest ∧ first.2.isAsync = call.isAsync ∧
        (call.isAsync = true → m.signature.isAsync = true) := by
  obtain ⟨hbefore, hafter⟩ := told.hooks_eq hm
  cases phase with
  | before =>
    rw [MethodDef.calls, hbefore] at hcall
    exact (List.mem_append.1 hcall).elim MethodDef.mem_planned MethodDef.mem_planned
  | after =>
    rw [MethodDef.calls, hafter] at hcall
    exact (List.mem_append.1 hcall).elim MethodDef.mem_planned MethodDef.mem_planned

/--
The hooks around the methods of a composite. Hooks have none. Around any other method the hook of all members is called before
the special one, and after it in reverse, each exactly if it is planned. A hook that is called is a method of the composite, or
the only member of its name that the base gives; it is asynchronous exactly if the call says so, and then the method is too. And
in the code of the composite nothing but asynchronous methods awaits.
-/
theorem hooks_exact {strict : Bool} {b : Blueprint} {t' : Planning σ} (h : (build p d strict q).runFrom t = (.ok b, t')) :
    ∃ x described base mixins, p.Describes q t x described (base :: mixins) ∧
      b.header.base :: b.header.mixins = x.participants.map SymbolRef.path ∧
      (∀ m ∈ b.methods,
        (Advice.isHook m.name = true → m.before = [] ∧ m.after = []) ∧
        m.before = m.planned q (x.served (base :: mixins)) .before .catchAll Advice.all ++
          m.planned q (x.served (base :: mixins)) .before .member m.name ∧
        m.after = m.planned q (x.served (base :: mixins)) .after .member m.name ++
          m.planned q (x.served (base :: mixins)) .after .catchAll Advice.all ∧
        ∀ phase, ∀ call ∈ m.calls phase, (call.isAsync = true → m.signature.isAsync = true) ∧
          ((∃ own, b.method? call.hook = some own ∧ own.signature.isAsync = call.isAsync) ∨
            call.hook ∉ b.memberNames ∧ ∃ s, ((base.eligibleMembers .base).filter fun s => s.name == call.hook) = [s] ∧
              s.isAsync = call.isAsync)) ∧
      ∀ isArtifact code, Source.compile isArtifact b = .ok code →
        ∀ c ∈ code.cls.methods, c.awaits = true → c.isAsync = true := by
  obtain ⟨o, u, claims, ho, -, rfl⟩ := build_eq_ok h
  obtain ⟨_, _, -, hheader, -⟩ := stages_of_outline ho
  have sound := outline_eq_ok p.keeps_trivial trivial ho
  obtain ⟨described, listed, read, told⟩ := told_of_outline ho
  have hlen := told.describes.length
  obtain _ | ⟨base, mixins⟩ := listed
  · cases hlen
  refine ⟨o.mix, described, base, mixins, told.describes, paths_of_planHeader hheader, fun m hm => ?_, ?_⟩
  · obtain ⟨hbefore, hafter⟩ := told.hooks_eq hm
    refine ⟨fun hhook => ?_, hbefore, hafter, fun phase call hcall => ?_⟩
    · obtain ⟨definitions, -, hplanned⟩ := sound.methods m hm
      exact ⟨hplanned.plain hhook .before, hplanned.plain hhook .after⟩
    · obtain ⟨first, rest, hdefinitions, hasync, hwaits⟩ := told.mem_calls hm hcall
      refine ⟨hwaits, ?_⟩
      by_cases hneeds : o.context.needsMethod call.hook ((first :: rest).map Prod.fst) = true
      · have hown : o.context.methodFor call.hook first rest ∈ o.methods :=
          told.mem_methods.2 ⟨first, rest, hdefinitions, hneeds, rfl⟩
        exact Or.inl ⟨_, method?_of_mem (b := ofClaims o claims) sound.names hown, hasync⟩
      · refine Or.inr ⟨fun hmem => ?_, first.2, (base_only told.base sound.participants hdefinitions hneeds).1, hasync⟩
        obtain ⟨own, hown, hname⟩ := List.mem_map.1 hmem
        obtain ⟨first', rest', hdefinitions', hneeds', -⟩ := told.mem_methods.1 hown
        rw [hname, hdefinitions] at hdefinitions'
        rw [hname, ← hdefinitions'] at hneeds'
        exact hneeds hneeds'
  · intro isArtifact code hcode c hc hawaits
    obtain ⟨-, hmethods, -⟩ := Source.classOf_eq_ok (Source.classOf_of_compile hcode)
    obtain ⟨m, -, hm⟩ := Outcome.exists_mem_of_forall₂ (Outcome.mapM_eq_ok.1 hmethods).flip hc
    exact Source.isAsync_of_awaits hm hawaits

end Blueprint

/-- A cart that is paid asynchronously and summed up synchronously, and a timer that watches both, asynchronously in general. -/
def Manifest.timed : List Manifest :=
  [{ ref := ⟨"shop", "Cart"⟩, members := [{ name := "pay", isAsync := true }, { name := "total" }] },
    { ref := ⟨"shop", "Timer"⟩
      members := [{ name := "BEFORE_ALL", isAsync := true }, { name := "BEFORE_total" }, { name := "AFTER_pay" }] }]

def Request.timed : Request :=
  { name := "Sale", base := .text "shop:Cart", mixins := [.text "shop:Timer"], before := .everything, after := .everything }

namespace Blueprint

/-- The general hook is awaited before a payment, and not called before the sum, which is synchronous. -/
theorem hooks_exact_timed : ∃ b t',
    (build (Provider.ofManifests Manifest.timed) ⟨.function 0, .function 1, .cls 2, .cls 3, .function 4⟩ false
      .timed).runFrom ⟨(), []⟩ = (.ok b, t') ∧
    (∃ m ∈ b.methods, m.name = "pay" ∧ m.before = [⟨"BEFORE_ALL", .before, .catchAll, true⟩] ∧
      m.after = [⟨"AFTER_pay", .after, .member, false⟩]) ∧
    ∃ m ∈ b.methods, m.name = "total" ∧ m.before = [⟨"BEFORE_total", .before, .member, false⟩] ∧ m.after = [] := by
  generalize hrun : (build (Provider.ofManifests Manifest.timed) _ false _).runFrom (⟨(), []⟩ : Planning Unit) = r
  have hmethods : (r.1.toOption.bind fun b => some (b.methods.map fun m => (m.name, m.signature.isAsync))) =
      some [("pay", true), ("total", false), ("BEFORE_ALL", true), ("BEFORE_total", false), ("AFTER_pay", false)] := by
    rw [← hrun]
    decide +kernel
  obtain ⟨outcome, t'⟩ := r
  cases outcome with
  | error e => cases hmethods
  | ok b =>
    have hmethods := Option.some.inj hmethods
    obtain ⟨x, described, base, mixins, hdescribes, -, hhooks, -⟩ := hooks_exact hrun
    obtain ⟨rfl, -, hlisted⟩ := Provider.eq_of_describes ⟨⟨"shop", "Cart"⟩, [⟨"shop", "Timer"⟩]⟩ Manifest.timed
      hdescribes (by decide +kernel) (by decide +kernel)
    obtain ⟨rfl, rfl⟩ := List.cons.inj hlisted
    have hfound : ∀ e ∈ [("pay", true), ("total", false)], ∃ m ∈ b.methods, m.name = e.1 ∧ m.signature.isAsync = e.2 := by
      intro e he
      have hmem : e ∈ b.methods.map fun m => (m.name, m.signature.isAsync) :=
        hmethods ▸ List.mem_append_left [_, _, _] he
      obtain ⟨m, hm, rfl⟩ := List.mem_map.1 hmem
      exact ⟨m, hm, rfl, rfl⟩
    obtain ⟨pay, hpay, hpayName, hpayAsync⟩ := hfound ("pay", true) (by decide)
    obtain ⟨total, htotal, htotalName, htotalAsync⟩ := hfound ("total", false) (by decide)
    obtain ⟨-, hpayBefore, hpayAfter, -⟩ := hhooks pay hpay
    obtain ⟨-, htotalBefore, htotalAfter, -⟩ := hhooks total htotal
    simp only [MethodDef.planned, hpayName, hpayAsync, htotalName, htotalAsync] at hpayBefore hpayAfter htotalBefore htotalAfter
    exact ⟨b, t', rfl, ⟨pay, hpay, hpayName, hpayBefore.trans (by decide +kernel), hpayAfter.trans (by decide +kernel)⟩,
      total, htotal, htotalName, htotalBefore.trans (by decide +kernel), htotalAfter.trans (by decide +kernel)⟩

end Blueprint

end Amalgam
