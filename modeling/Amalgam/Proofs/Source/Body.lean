import Amalgam.Proofs.Source.Contract

/-!
# Bodies keep the contract

Where all names of a method mean what they should, its body does in every scene what `Scene.contract` says
(`runBody_agrees`). A body runs over its locals, of which it changes the slots only (`Ready`), so each call in it finds
the same receiver and arguments.
-/

namespace Amalgam

theorem Surroundings.hide_congr {M : Type → Type} (s : Surroundings M) {names names' : List String}
    (h : ∀ name, name ∈ names ↔ name ∈ names') : s.hide names = s.hide names' := by
  unfold hide
  congr 1
  funext name
  simp only [List.contains_iff_mem, h name]

namespace Source

open Act (Agree Keeps)

/-- The locals of a body on its way: as they were at the start, but for the slots. -/
def Ready (m : MethodDef) (locals env : Entries Value) : Prop := ∀ name, name ∉ m.slots → env.get? name = locals.get? name

theorem Ready.put {m : MethodDef} {locals env : Entries Value} (h : Ready m locals env) {slot : String}
    (hslot : slot ∈ m.slots) (v : Value) : Ready m locals (env.put slot v) := by
  intro name hname
  have hne : name ≠ slot := fun heq => hname (heq ▸ hslot)
  rw [Entries.get?_put_of_ne _ _ hne]
  exact h name hname

/-- An argument in front of the others: a text, or a local that has a value. -/
inductive Front (env : Entries Value) : List Arg → List Value → Prop where
  | nil : Front env [] []
  | text {t : String} {args vs} (rest : Front env args vs) : Front env (.text t :: args) (.str t :: vs)
  | name {n : String} {v : Value} {args vs} (h : env.get? n = some v) (rest : Front env args vs) :
    Front env (.name n :: args) (v :: vs)

theorem Front.evalArgs {M : Type → Type} [Monad M] [LawfulMonad M] (s : Surroundings M) {env : Entries Value}
    {args : List Arg} {vs : List Value} (h : Front env args vs) (done : List Value) (rest : List Arg) :
    Source.evalArgs s env done [] (args ++ rest) = Source.evalArgs s env (done ++ vs) [] rest := by
  induction h generalizing done with
  | nil => rw [List.nil_append, List.append_nil]
  | @text t args vs _ ih =>
    rw [List.cons_append, Source.evalArgs, ih, List.append_assoc]
    rfl
  | @name n v args vs h _ ih =>
    rw [List.cons_append, Source.evalArgs, lookUp_eq_pure h, pure_bind, ih, List.append_assoc]
    rfl

/-- The statements that come of the hook of all members. -/
def watchStmts (b : Blueprint) (m : MethodDef) (general : Option Advice.Call) (args : List Arg) : List Stmt :=
  general.toList.map fun call =>
    (Stmt.observe (hookCall ((receiverOf m.signature.kind).getD b.name) m.signature call
      (args ++ forwardAll m.signature))).within b.name

/-- The statements that come of the hook of one member. -/
def decisionStmts (b : Blueprint) (m : MethodDef) (test : String → Stmt) (special : Option Advice.Call) (args : List Arg)
    (cls : String) : List Stmt :=
  special.toList.flatMap fun call =>
    [(Stmt.decide (hookCall ((receiverOf m.signature.kind).getD b.name) m.signature call
      (args ++ forwardAll m.signature))).within b.name, (test cls).within b.name]

/-! ## Names -/

section Body

variable {W : Type} {x : Scene W} {b : Blueprint} {m : MethodDef} {o : Occasion} {locals env : Entries Value}

theorem slots_subset (m : MethodDef) : m.slots ⊆ [Alias.returnSlot, Alias.decisionSlot] := by
  unfold MethodDef.slots
  split
  · split <;> simp
  · exact List.nil_subset _

/-- A name that no parameter and no slot takes is that of the surroundings. -/
theorem lookUp_outer {name : String} {v : Value} (starts : o.Starts b m locals) (ready : Ready m locals env)
    (hlocal : name ∉ m.localNames b) (hslot : name ∉ m.slots) (finds : x.Finds name v) :
    Agree x.Inv (lookUp (x.surroundings.hide m.slots) env name) (pure v) := by
  have hnone : env.get? name = none := by
    rw [ready name hslot]
    exact (Entries.get?_eq_none_iff _ _).2 fun hkey => hlocal (starts.known hkey)
  unfold lookUp
  rw [hnone]
  show Agree x.Inv (if m.slots.contains name then _ else x.surroundings.lookUp name) _
  rw [if_neg (by simpa using hslot)]
  exact finds

theorem not_mem_slots_of_fresh {name : String} (h : name ∉ Alias.fixedNames) : name ∉ m.slots := by
  intro hslot
  refine h ?_
  have := slots_subset m hslot
  unfold Alias.fixedNames
  simp only [List.mem_cons, List.not_mem_nil, or_false] at this ⊢
  rcases this with rfl | rfl <;> simp

variable (built : m.IsBuilt b) (apart : ∀ p ∈ m.signature.params, p.name ∉ m.identifiers b) (holds : m.NamesHold b)
  (lawful : x.Lawful b) (starts : o.Starts b m locals) (ready : Ready m locals env)

include apart in
/-- No parameter takes the place of an identifier without two underscores in a row. -/
theorem param_ne {ident : String} (hident : ident ∈ m.identifiers b) (hplain : ¬['_', '_'] <:+: ident.toList) {p : Param}
    (hp : p ∈ m.signature.params) : Text.privateName b.name p.name ≠ ident :=
  Text.privateName_ne_of_plain hplain fun heq => apart p hp (heq ▸ hident)

include apart in
theorem param_not_mem_slots {p : Param} (hp : p ∈ m.signature.params) : Text.privateName b.name p.name ∉ m.slots := by
  unfold MethodDef.slots
  split
  · rename_i hadvised
    rw [List.mem_cons, not_or]
    refine ⟨param_ne apart (by simp [MethodDef.identifiers, MethodDef.spelledNames, hadvised]) (by decide +kernel) hp, ?_⟩
    split
    · rename_i hdecides
      rw [List.mem_singleton]
      exact param_ne apart (by simp [MethodDef.identifiers, MethodDef.spelledNames, hdecides]) (by decide +kernel) hp
    · exact List.not_mem_nil
  · exact List.not_mem_nil

include apart in
/-- Nor is the test of decisions a parameter or the receiver. -/
theorem test_not_mem_localNames (hdecides : m.decides = true) : "isinstance" ∉ m.localNames b := by
  unfold MethodDef.localNames
  rw [List.mem_append, not_or]
  constructor
  · cases hkind : m.signature.kind <;> decide
  · intro hmem
    obtain ⟨p, hp, heq⟩ := List.mem_map.1 hmem
    exact param_ne apart (by simp [MethodDef.identifiers, MethodDef.spelledNames, hdecides]) (by decide +kernel) hp heq

theorem receiver_not_mem_slots {r : String} (h : Source.receiverOf m.signature.kind = some r) : r ∉ m.slots := by
  intro hslot
  have := slots_subset m hslot
  cases hkind : m.signature.kind <;> rw [hkind] at h <;> cases h <;> exact absurd this (by decide)

include built holds lawful starts ready in
/-- The name of a symbol that a body calls stands for the symbol. -/
theorem lookUp_called {path name : String} (hpath : path ∈ m.calledPaths) (h : b.aliases.get? path = some name) :
    Agree x.Inv (lookUp (x.surroundings.hide m.slots) env (Text.privateName b.name name)) (pure (x.object path)) := by
  obtain ⟨⟨hsame, hcomposed⟩, hlocal⟩ := holds.called path hpath name h
  rw [hsame]
  exact lookUp_outer starts ready hlocal (not_mem_slots_of_fresh (built.fresh h).1) (lawful.symbol h hcomposed)

include built holds lawful starts ready in
/-- The name of a verdict that a body tests for stands for its class. -/
theorem lookUp_verdict {k : Verdict} {name : String} (hpath : k.ref.path ∈ m.verdictPaths)
    (h : b.aliases.get? k.ref.path = some name) :
    Agree x.Inv (lookUp (x.surroundings.hide m.slots) env (Text.privateName b.name name))
      (pure (x.object k.ref.path)) := by
  obtain ⟨hsame, hcomposed⟩ := built.verdict h
  rw [hsame]
  exact lookUp_outer starts ready (holds.verdict _ hpath name h) (not_mem_slots_of_fresh (built.fresh h).1)
    (lawful.symbol h hcomposed)

include apart holds lawful starts ready in
/-- So does that of the test of decisions. -/
theorem lookUp_test (hdecides : m.decides = true) :
    Agree x.Inv (lookUp (x.surroundings.hide m.slots) env "isinstance") (pure x.test) := by
  refine lookUp_outer starts ready (test_not_mem_localNames apart hdecides) (fun hslot => ?_)
    (lawful.test (holds.test hdecides))
  exact absurd (slots_subset m hslot) (by decide)

theorem receiver_plain {kind : MemberKind} : ∀ r ∈ receiverOf kind, ¬['_', '_'] <:+: r.toList := by
  cases kind <;> decide +kernel

theorem privateName_receiver {r : String} (h : receiverOf m.signature.kind = some r) (owner : String) :
    Text.privateName owner r = r :=
  (Text.privateName_eq_plain_iff (receiver_plain r h)).2 rfl

include starts ready in
/-- The receiver of a method is found under its name. -/
theorem get?_receiver {r : String} (h : receiverOf m.signature.kind = some r) :
    ∃ v, o.receiver = some v ∧ env.get? r = some v := by
  have hreceiver := starts.receiver
  rw [h, Option.map_some] at hreceiver
  obtain ⟨v, hv, hget⟩ := Option.map_eq_some_iff.1 hreceiver.symm
  exact ⟨v, hv, (ready r (receiver_not_mem_slots h)).trans hget.symm⟩

include starts in
theorem no_receiver (h : receiverOf m.signature.kind = none) : o.receiver = none := by
  have hreceiver := starts.receiver
  rw [h, Option.map_none] at hreceiver
  exact Option.map_eq_none_iff.1 hreceiver.symm

include starts ready in
theorem front_receiver :
    Front env ((receiverOf m.signature.kind).toList.map (Arg.within b.name ∘ Arg.name)) o.receiver.toList := by
  cases hr : receiverOf m.signature.kind with
  | none =>
    rw [no_receiver starts hr]
    exact .nil
  | some r =>
    obtain ⟨v, hv, hget⟩ := get?_receiver starts ready hr
    rw [hv]
    refine .name ?_ .nil
    rwa [privateName_receiver hr]

include apart holds lawful starts ready in
/-- What hooks are called through is the receiver of the method, or the composite where there is none. -/
theorem lookUp_owner (hadvised : m.isAdvised = true) :
    Agree x.Inv (lookUp (x.surroundings.hide m.slots) env
      (Text.privateName b.name ((receiverOf m.signature.kind).getD b.name))) (pure (o.receiver.getD x.composite)) := by
  cases hr : receiverOf m.signature.kind with
  | some r =>
    obtain ⟨v, hv, hget⟩ := get?_receiver starts ready hr
    rw [hv, Option.getD_some, Option.getD_some, privateName_receiver hr, lookUp_eq_pure hget]
    exact Agree.refl _
  | none =>
    have hnone := no_receiver starts hr
    have hthrough : m.callsThroughName = true := by
      rw [MethodDef.callsThroughName, hadvised, hr]
      rfl
    obtain ⟨⟨hsame, hcomposed⟩, hslot⟩ := holds.owner hthrough
    rw [hnone, Option.getD_none, Option.getD_none, hsame]
    refine lookUp_outer starts ready ?_ hslot (lawful.composite hcomposed)
    unfold MethodDef.localNames
    rw [hr, Option.toList_none, List.nil_append]
    intro hmem
    obtain ⟨p, hp, heq⟩ := List.mem_map.1 hmem
    refine Text.privateName_ne_owner (fun h => apart p hp ?_) heq
    simp [MethodDef.identifiers, MethodDef.spelledNames, hthrough, h]

/-! ## Calls -/

include apart starts ready in
/-- Each call hands on the arguments of the occasion, behind those of its own. -/
theorem evalArgs_handed (s : Surroundings (Act W)) {args : List Arg} {front : List Value} (hfront : Front env args front) :
    evalArgs s env [] [] (args ++ m.signature.params.map fun p => (forward p).within b.name) =
      pure (some (front ++ o.args, o.keywords)) := by
  obtain ⟨extra, bound, handed, hbound⟩ := starts.params
  have hlocals : ∀ e ∈ bound, env.get? (Text.privateName b.name e.1) = some e.2 := by
    intro e he
    have hkey : e.1 ∈ (m.signature.params.map Param.shape).map ParamShape.name :=
      handed.keys_env ▸ List.mem_map_of_mem he
    rw [List.map_map] at hkey
    obtain ⟨p, hp, hname⟩ := List.mem_map.1 hkey
    have hname : p.name = e.1 := hname
    rw [ready _ (hname ▸ param_not_mem_slots apart hp)]
    exact hbound e he
  rw [hfront.evalArgs, List.nil_append]
  exact evalArgs_forward s b.name handed rfl hlocals starts.distinct

/-- A call does what its target and its arguments say. -/
theorem Call.eval_agrees {names : List String} {c : Call} {f : Act W Value} {vs : List Value} {ks : Entries Value}
    (htarget : Agree x.Inv (c.target.eval (x.surroundings.hide names) env) f) (keeps : Keeps x.Inv f)
    (hargs : evalArgs (x.surroundings.hide names) env [] [] c.args = pure (some (vs, ks))) :
    Agree x.Inv (c.eval (x.surroundings.hide names) env) (do
      let v ← x.surroundings.call (← f) vs ks
      if c.isAwaited then x.surroundings.await v else pure v) := by
  unfold Call.eval
  refine htarget.bind keeps fun f => ?_
  rw [hargs, pure_bind]
  exact Agree.refl _

theorem privateName_hook (owner : String) (phase : Phase) (member : String) :
    Text.privateName owner (Advice.hook phase member) = Advice.hook phase member := by
  refine Text.privateName_eq_self ?_
  rintro ⟨tail, htail⟩
  unfold Advice.hook at htail
  rw [String.toList_append] at htail
  cases phase <;> exact absurd (List.cons.inj htail).1 (by decide)

include apart holds lawful starts ready in
/-- The call of a hook does what the contract says. -/
theorem hookCall_agrees {call : Advice.Call} {phase : Phase} {member : String} (hhook : call.hook = Advice.hook phase member)
    (hadvised : m.isAdvised = true) {args : List Arg} {front : List Value}
    (hfront : Front env (args.map (Arg.within b.name)) front) :
    Agree x.Inv (((hookCall ((receiverOf m.signature.kind).getD b.name) m.signature call
      (args ++ forwardAll m.signature)).within b.name).eval (x.surroundings.hide m.slots) env) (x.hook m o call front) := by
  refine Call.eval_agrees ?_ (lawful.attr _ _) ?_
  · show Agree x.Inv (lookUp _ env _ >>= ([Text.privateName b.name call.hook].foldlM x.surroundings.attr ·)) _
    refine (lookUp_owner apart holds lawful starts ready hadvised).bind_pure ?_
    simp only [List.foldlM_cons, List.foldlM_nil, bind_pure]
    rw [hhook, privateName_hook]
    exact Agree.refl _
  · show evalArgs _ env [] [] ((args ++ forwardAll m.signature).map (Arg.within b.name)) = _
    rw [forwardAll, List.map_append, List.map_map]
    exact evalArgs_handed apart starts ready _ hfront

include built apart holds lawful starts ready in
/-- So does the call of a contributor. -/
theorem contributorCall_agrees {target : MemberCall} (htarget : target ∈ m.core.targets) {c : Call}
    (h : contributorCall b m.signature (receiverOf m.signature.kind) target = .ok c) :
    Agree x.Inv ((c.within b.name).eval (x.surroundings.hide m.slots) env) (x.contribution m o target) := by
  obtain ⟨owner, howner, h⟩ := Outcome.bind_eq_ok.1 h
  cases h
  have howner := aliasOf_eq_ok.1 howner
  have hpath : target.contributor ∈ m.calledPaths := List.mem_append_left _ (List.mem_map_of_mem htarget)
  have hmember : Text.privateName b.name target.member = target.member := by
    rw [built.targets target htarget]
    exact holds.member
  refine Call.eval_agrees ?_ ?_ ?_
  · show Agree x.Inv (lookUp _ env _ >>=
      ((implementation owner m.signature.kind target.member).attributes.map (Text.privateName b.name)).foldlM
        x.surroundings.attr) _
    refine (lookUp_called built holds lawful starts ready hpath howner).bind_pure ?_
    unfold implementation Scene.implementation
    split
    · have hfunc : Text.privateName b.name "__func__" = "__func__" := by
        unfold Text.privateName
        exact if_neg (by simp [show Text.isPrivateName "__func__" = false from by decide +kernel])
      rw [List.map_cons, List.map_cons, List.map_nil, hmember, hfunc]
      simp only [List.foldlM_cons, List.foldlM_nil, bind_pure]
      exact Agree.refl _
    · rw [List.map_cons, List.map_nil, hmember]
      simp only [List.foldlM_cons, List.foldlM_nil]
      exact Agree.refl _
  · refine (lawful.attr _ _).bind fun f => ?_
    split
    · exact lawful.attr _ _
    · exact Act.keeps_pure _
  · show evalArgs _ env [] [] (((receiverOf m.signature.kind).toList.map Arg.name ++ forwardAll m.signature).map _) = _
    rw [forwardAll, List.map_append, List.map_map, List.map_map]
    exact evalArgs_handed apart starts ready _ (front_receiver starts ready)

/-! ## The work -/

include lawful in
theorem hook_keeps (call : Advice.Call) (front : List Value) : Keeps x.Inv (x.hook m o call front) := by
  refine (lawful.attr _ _).bind fun f => (lawful.call _ _ _).bind fun v => ?_
  split
  · exact lawful.await v
  · exact Act.keeps_pure v

include lawful in
theorem contribution_keeps (target : MemberCall) : Keeps x.Inv (x.contribution m o target) := by
  refine Keeps.bind ((lawful.attr _ _).bind fun f => ?_) fun f => (lawful.call _ _ _).bind fun v => ?_
  · split
    · exact lawful.attr _ _
    · exact Act.keeps_pure _
  · split
    · exact lawful.await v
    · exact Act.keeps_pure v

include lawful in
theorem outcome_keeps : Keeps x.Inv (x.outcome m o) := by
  unfold Scene.outcome
  split
  · exact contribution_keeps lawful _
  · exact (Keeps.mapM fun target _ => contribution_keeps lawful target).bind fun results => lawful.call _ _ _

include built apart holds lawful starts ready in
theorem evalCalls_agrees {targets : List MemberCall} (hsub : targets ⊆ m.core.targets) {calls : List Call}
    (h : List.Forall₂ (fun t c => contributorCall b m.signature (receiverOf m.signature.kind) t = .ok c) targets calls) :
    Agree x.Inv (evalCalls (x.surroundings.hide m.slots) env (calls.map (Call.within b.name)))
      (targets.mapM (x.contribution m o)) := by
  induction h with
  | nil => exact Agree.refl _
  | cons hcall _ ih =>
    obtain ⟨hmem, hsub⟩ := List.cons_subset.1 hsub
    rw [List.map_cons, evalCalls, List.mapM_cons]
    refine (contributorCall_agrees built apart holds lawful starts ready hmem hcall).bind
      (contribution_keeps lawful _) fun v => ?_
    exact (ih hsub).bind (Keeps.mapM fun target _ => contribution_keeps lawful target) fun vs => Agree.refl _

include built apart holds lawful starts ready in
/-- The contributors are called as the contract says, each of them once and in their order. -/
theorem work_agrees {work : Work} (h : workOf b m (receiverOf m.signature.kind) = .ok work) :
    Agree x.Inv ((work.within b.name).eval (x.surroundings.hide m.slots) env) (x.outcome m o) := by
  unfold workOf at h
  unfold Scene.outcome
  cases hcore : m.core with
  | call target =>
    rw [hcore] at h
    obtain ⟨call, hcall, h⟩ := Outcome.bind_eq_ok.1 h
    cases h
    refine contributorCall_agrees built apart holds lawful starts ready ?_ hcall
    rw [hcore]
    exact List.mem_singleton_self _
  | combine f targets =>
    rw [hcore] at h
    obtain ⟨calls, hcalls, h⟩ := Outcome.bind_eq_ok.1 h
    obtain ⟨name, hname, h⟩ := Outcome.bind_eq_ok.1 h
    cases h
    have hpath : f ∈ m.calledPaths := by
      rw [MethodDef.calledPaths, hcore]
      exact List.mem_append_right _ (List.mem_singleton_self _)
    have hsub : targets ⊆ m.core.targets := by
      rw [hcore]
      exact List.Subset.refl _
    show Agree x.Inv (lookUp _ env (Text.privateName b.name name) >>= _) _
    refine (lookUp_called built holds lawful starts ready hpath (aliasOf_eq_ok.1 hname)).bind_pure ?_
    refine (evalCalls_agrees built apart holds lawful starts ready hsub (Outcome.mapM_eq_ok.1 hcalls)).bind ?_
      fun vs => Agree.refl _
    exact Keeps.mapM fun target _ => contribution_keeps lawful target

/-! ## Statements -/

include apart holds lawful starts ready built in
/-- The test of a decision tells whether it is a verdict of the kind. -/
theorem isDecided_agrees {k : Verdict} (hpath : k.ref.path ∈ m.verdictPaths) {cls : String}
    (hcls : b.aliases.get? k.ref.path = some cls) (hdecides : m.decides = true) {d : Value}
    (hd : env.get? Alias.decisionSlot = some d) :
    Agree x.Inv (isDecided (x.surroundings.hide m.slots) env (Text.privateName b.name cls)) (pure (d.isVerdict k)) := by
  unfold isDecided
  refine (lookUp_test apart holds lawful starts ready hdecides).bind_pure ?_
  rw [lookUp_eq_pure hd, pure_bind]
  refine (lookUp_verdict built holds lawful starts ready hpath hcls).bind_pure ?_
  exact (lawful.tells d k).bind_pure (Agree.refl _)

include apart holds lawful starts ready in
/-- A hook of all members is called, and what it returns is ignored. -/
theorem run_watch {phase : Phase} {general : Option Advice.Call} (hadvised : m.isAdvised = true)
    (hgeneral : ∀ call ∈ general, call.hook = Advice.catchAll phase) {args : List Arg} {front : List Value}
    (hfront : Front env (args.map (Arg.within b.name)) front) {rest : List Stmt} {k : Act W Value}
    (hrest : Agree x.Inv (run (x.surroundings.hide m.slots) env rest) k) :
    Agree x.Inv (run (x.surroundings.hide m.slots) env
      (watchStmts b m general args ++ rest)) (x.watch m o general front >>= fun _ => k) := by
  cases general with
  | none => exact hrest
  | some call =>
    show Agree x.Inv (Call.eval _ env _ >>= fun _ => run _ env rest) ((x.hook m o call front >>= fun _ => pure ()) >>= _)
    rw [bind_assoc]
    refine (hookCall_agrees apart holds lawful starts ready (hgeneral call rfl) hadvised hfront).bind
      (hook_keeps lawful _ _) fun v => ?_
    rw [pure_bind]
    exact hrest

include built apart holds lawful starts ready in
/-- A hook before the member may end the call. -/
theorem run_leave {special : Option Advice.Call} {cls : String} {rest : List Stmt} {k : Act W Value}
    (hadvised : m.isAdvised = true) (hhook : ∀ call ∈ special, call.hook = Advice.hook .before m.name)
    (hany : (m.before.any fun call => call.scope == .member) = special.isSome)
    (hcls : ∀ call ∈ special, b.aliases.get? Verdict.shortCircuit.ref.path = some cls)
    (hrest : ∀ env, Ready m locals env → Agree x.Inv (run (x.surroundings.hide m.slots) env rest) k) :
    Agree x.Inv (run (x.surroundings.hide m.slots) env (decisionStmts b m .leaveOn special [] cls ++ rest)) (do
      match ← x.decision m o special [] with
      | some (.verdict .shortCircuit v) => pure v
      | _ => k) := by
  cases special with
  | none => exact hrest env ready
  | some call =>
    have hany : (m.before.any fun call => call.scope == .member) = true := hany
    have hdecides : m.decides = true := by
      rw [MethodDef.decides, hany]
      rfl
    have hpath : Verdict.shortCircuit.ref.path ∈ m.verdictPaths := by
      rw [MethodDef.verdictPaths, if_pos hany]
      simp
    show Agree x.Inv (Call.eval _ env _ >>= fun d => run _ (env.put Alias.decisionSlot d) (.leaveOn _ :: rest))
      ((x.hook m o call [] >>= fun d => pure (some d)) >>= _)
    rw [bind_assoc]
    refine (hookCall_agrees apart holds lawful starts ready (hhook call rfl) hadvised .nil).bind (hook_keeps lawful _ _) fun d => ?_
    rw [pure_bind]
    have hslot : Alias.decisionSlot ∈ m.slots := by
      rw [MethodDef.slots, if_pos hadvised, if_pos hdecides]
      simp
    have hput : (env.put Alias.decisionSlot d).get? Alias.decisionSlot = some d := Entries.get?_put_self _ _ _
    have hready := ready.put hslot d
    unfold run
    refine (isDecided_agrees built apart holds lawful starts hready hpath (hcls call rfl) hdecides hput).bind_pure ?_
    by_cases hverdict : d.isVerdict .shortCircuit = true
    · obtain ⟨v, rfl⟩ := Value.eq_verdict hverdict
      rw [if_pos hverdict, lookUp_eq_pure hput, pure_bind]
      exact lawful.carries _ v
    · rw [if_neg hverdict]
      split
      · rename_i heq
        cases heq
        exact absurd rfl hverdict
      · exact hrest _ hready

include built apart holds lawful starts ready in
/-- A hook after the member may replace the result. -/
theorem run_replace {special : Option Advice.Call} {cls : String} {r : Value} {rest : List Stmt} {k : Value → Act W Value}
    (hadvised : m.isAdvised = true) (hhook : ∀ call ∈ special, call.hook = Advice.hook .after m.name)
    (hany : (m.after.any fun call => call.scope == .member) = special.isSome)
    (hcls : ∀ call ∈ special, b.aliases.get? Verdict.replace.ref.path = some cls)
    (hr : env.get? Alias.returnSlot = some r)
    (hrest : ∀ v env, Ready m locals env → env.get? Alias.returnSlot = some v →
      Agree x.Inv (run (x.surroundings.hide m.slots) env rest) (k v)) :
    Agree x.Inv (run (x.surroundings.hide m.slots) env
      (decisionStmts b m .replaceOn special [.name Alias.returnSlot] cls ++ rest)) (do
      let v ← match ← x.decision m o special [r] with
        | some (.verdict .replace v) => pure v
        | _ => pure r
      k v) := by
  cases special with
  | none => exact hrest r env ready hr
  | some call =>
    have hany : (m.after.any fun call => call.scope == .member) = true := hany
    have hdecides : m.decides = true := by
      rw [MethodDef.decides, hany, Bool.or_true]
    have hpath : Verdict.replace.ref.path ∈ m.verdictPaths := by
      rw [MethodDef.verdictPaths, if_pos hany]
      simp
    show Agree x.Inv (Call.eval _ env _ >>= fun d => run _ (env.put Alias.decisionSlot d) (.replaceOn _ :: rest))
      ((x.hook m o call [r] >>= fun d => pure (some d)) >>= _)
    rw [bind_assoc]
    have hfront : Front env ([Arg.name Alias.returnSlot].map (Arg.within b.name)) [r] := by
      refine .name ?_ .nil
      rwa [Text.privateName_eq_self (by decide +kernel)]
    refine (hookCall_agrees apart holds lawful starts ready (hhook call rfl) hadvised hfront).bind (hook_keeps lawful _ _)
      fun d => ?_
    rw [pure_bind]
    have hslots : Alias.returnSlot ∈ m.slots ∧ Alias.decisionSlot ∈ m.slots := by
      rw [MethodDef.slots, if_pos hadvised, if_pos hdecides]
      simp
    have hput : (env.put Alias.decisionSlot d).get? Alias.decisionSlot = some d := Entries.get?_put_self _ _ _
    have hready := ready.put hslots.2 d
    unfold run
    refine (isDecided_agrees built apart holds lawful starts hready hpath (hcls call rfl) hdecides hput).bind_pure ?_
    by_cases hverdict : d.isVerdict .replace = true
    · obtain ⟨v, rfl⟩ := Value.eq_verdict hverdict
      rw [if_pos hverdict, lookUp_eq_pure hput, pure_bind]
      refine (lawful.carries _ v).bind_pure ?_
      show Agree x.Inv _ (pure v >>= k)
      rw [pure_bind]
      exact hrest v _ (hready.put hslots.1 v) (Entries.get?_put_self _ _ _)
    · rw [if_neg hverdict]
      split
      · rename_i heq
        cases heq
        exact absurd rfl hverdict
      · rw [pure_bind]
        refine hrest r _ hready ?_
        rw [Entries.get?_put_of_ne _ _ (by decide +kernel)]
        exact hr

end Body

/-! ## Bodies -/

variable {b : Blueprint} {m : MethodDef}

/-- A body is the work, between the statements of its hooks if there are any. -/
theorem bodyOf_eq_ok {receiver : Option String} {body : List Stmt} (h : bodyOf b m receiver = .ok body) :
    ∃ work, workOf b m receiver = .ok work ∧ (m.isAdvised = false ∧ body = [.give work] ∨
      m.isAdvised = true ∧ ∃ before after, m.before.mapM (beforeStmts b (receiver.getD b.name) m) = .ok before ∧
        m.after.mapM (afterStmts b (receiver.getD b.name) m) = .ok after ∧
        body = before.flatten ++ [.keep work] ++ after.flatten ++ [.finish]) := by
  obtain ⟨work, hwork, h⟩ := Outcome.bind_eq_ok.1 h
  refine ⟨work, hwork, ?_⟩
  have hkept : ∀ body' : List Stmt, (do
      readable (body'.all Stmt.isReadable)
      return body') = .ok body → body = body' := by
    intro body' h
    obtain ⟨_, _, h⟩ := Outcome.bind_eq_ok.1 h
    cases h
    rfl
  cases hadvised : m.isAdvised with
  | false =>
    rw [hadvised] at h
    exact Or.inl ⟨rfl, hkept _ h⟩
  | true =>
    rw [hadvised] at h
    obtain ⟨before, hbefore, h⟩ := Outcome.bind_eq_ok.1 h
    obtain ⟨after, hafter, h⟩ := Outcome.bind_eq_ok.1 h
    exact Or.inr ⟨rfl, before, after, hbefore, hafter, hkept _ h⟩

theorem methodOf_eq_ok {c : Method} (h : methodOf b m = .ok c) : c.name = m.name ∧ c.kind = m.signature.kind ∧
    c.receiver = receiverOf m.signature.kind ∧ formalsOf b m (receiverOf m.signature.kind) = .ok c.formals ∧
      bodyOf b m (receiverOf m.signature.kind) = .ok c.body := by
  obtain ⟨name, hname, h⟩ := Outcome.bind_eq_ok.1 h
  obtain ⟨formals, hformals, h⟩ := Outcome.bind_eq_ok.1 h
  obtain ⟨body, hbody, h⟩ := Outcome.bind_eq_ok.1 h
  cases h
  exact ⟨nodeName_eq_ok hname, rfl, rfl, hformals, hbody⟩

theorem beforeStmts_eq_ok {general special : Option Advice.Call} (hooks : m.Hooks .before general special)
    {parts : List (List Stmt)}
    (h : (general.toList ++ special.toList).mapM (beforeStmts b ((receiverOf m.signature.kind).getD b.name) m) =
      .ok parts) :
    ∃ cls, (∀ call ∈ special, b.aliases.get? Verdict.shortCircuit.ref.path = some cls) ∧
      parts.flatten.map (Stmt.within b.name) =
        watchStmts b m general [.text m.memberId] ++ decisionStmts b m .leaveOn special [] cls := by
  obtain ⟨pg, ps, hpg, hps, rfl⟩ := Outcome.mapM_append_eq_ok.1 h
  obtain ⟨sg, rfl, hg⟩ := Outcome.mapM_toList_eq_ok hpg
  obtain ⟨ss, rfl, hs⟩ := Outcome.mapM_toList_eq_ok hps
  have hgeneral : sg.toList.flatten.map (Stmt.within b.name) = watchStmts b m general [.text m.memberId] := by
    cases hg with
    | none => rfl
    | @some call stmts hstmts =>
      rw [beforeStmts, (hooks.general call rfl).2.1] at hstmts
      cases hstmts
      rfl
  rw [List.flatten_append, List.map_append, hgeneral]
  cases hs with
  | none => exact ⟨"", by simp, rfl⟩
  | @some call stmts hstmts =>
    rw [beforeStmts, (hooks.special call rfl).2.1] at hstmts
    obtain ⟨cls, hcls, hstmts⟩ := Outcome.bind_eq_ok.1 hstmts
    cases hstmts
    exact ⟨cls, fun _ _ => aliasOf_eq_ok.1 hcls, rfl⟩

theorem afterStmts_eq_ok {general special : Option Advice.Call} (hooks : m.Hooks .after general special)
    {parts : List (List Stmt)}
    (h : (special.toList ++ general.toList).mapM (afterStmts b ((receiverOf m.signature.kind).getD b.name) m) =
      .ok parts) :
    ∃ cls, (∀ call ∈ special, b.aliases.get? Verdict.replace.ref.path = some cls) ∧
      parts.flatten.map (Stmt.within b.name) =
        decisionStmts b m .replaceOn special [.name Alias.returnSlot] cls ++
          watchStmts b m general [.text m.memberId, .name Alias.returnSlot] := by
  obtain ⟨ps, pg, hps, hpg, rfl⟩ := Outcome.mapM_append_eq_ok.1 h
  obtain ⟨sg, rfl, hg⟩ := Outcome.mapM_toList_eq_ok hpg
  obtain ⟨ss, rfl, hs⟩ := Outcome.mapM_toList_eq_ok hps
  have hgeneral : sg.toList.flatten.map (Stmt.within b.name) =
      watchStmts b m general [.text m.memberId, .name Alias.returnSlot] := by
    cases hg with
    | none => rfl
    | @some call stmts hstmts =>
      rw [afterStmts, (hooks.general call rfl).2.1] at hstmts
      cases hstmts
      rfl
  rw [List.flatten_append, List.map_append, hgeneral]
  cases hs with
  | none => exact ⟨"", by simp, rfl⟩
  | @some call stmts hstmts =>
    rw [afterStmts, (hooks.special call rfl).2.1] at hstmts
    obtain ⟨cls, hcls, hstmts⟩ := Outcome.bind_eq_ok.1 hstmts
    cases hstmts
    exact ⟨cls, fun _ _ => aliasOf_eq_ok.1 hcls, rfl⟩

/-- The planned hooks of a phase are found by their names, in whichever order they stand. -/
theorem find?_hooks {phase : Phase} {general special : Option Advice.Call} (hooks : m.Hooks phase general special)
    {calls : List Advice.Call}
    (h : calls = general.toList ++ special.toList ∨ calls = special.toList ++ general.toList) :
    (calls.find? fun call => call.hook == Advice.hook phase Advice.all) = general ∧
      (calls.find? fun call => call.hook == Advice.hook phase m.name) = special := by
  have hgeneral := hooks.general
  have hspecial := hooks.special
  have hinjective : ∀ member, Advice.hook phase member = Advice.hook phase Advice.all → member = Advice.all :=
    fun member => (String.append_right_inj _).1
  cases general with
  | none =>
    cases special with
    | none =>
      rcases h with rfl | rfl
      all_goals exact ⟨rfl, rfl⟩
    | some s =>
      obtain ⟨hs, -, hname⟩ := hspecial s rfl
      have hne : Advice.hook phase m.name ≠ Advice.hook phase Advice.all := fun heq => hname (hinjective _ heq)
      rcases h with rfl | rfl
      all_goals simp [hs, hne]
  | some g =>
    obtain ⟨hg, -, hname⟩ := hgeneral g rfl
    have hne : Advice.hook phase m.name ≠ Advice.hook phase Advice.all := fun heq => hname (hinjective _ heq)
    have hg : g.hook = Advice.hook phase Advice.all := hg
    cases special with
    | none =>
      rcases h with rfl | rfl
      all_goals simp [hg, hne.symm]
    | some s =>
      obtain ⟨hs, -, -⟩ := hspecial s rfl
      rcases h with rfl | rfl
      all_goals simp [hg, hs, hne, hne.symm]

/-- An advised method has a planned hook. -/
theorem exists_hook (built : m.IsBuilt b) (hadvised : m.isAdvised = true) :
    ∃ phase member, (member = Advice.all ∨ member = m.name) ∧ m.hook? phase member ≠ none := by
  obtain ⟨general, special, hooks, hbefore⟩ := built.before
  obtain ⟨general', special', hooks', hafter⟩ := built.after
  have hfound := find?_hooks hooks (Or.inl hbefore)
  have hfound' := find?_hooks hooks' (Or.inr hafter)
  by_contra hnone
  have hall : ∀ phase member, member = Advice.all ∨ member = m.name → m.hook? phase member = none := by
    intro phase member hmember
    by_contra hne
    exact hnone ⟨phase, member, hmember, hne⟩
  rw [hfound.1.symm.trans (hall .before _ (Or.inl rfl)), hfound.2.symm.trans (hall .before _ (Or.inr rfl))] at hbefore
  rw [hfound'.1.symm.trans (hall .after _ (Or.inl rfl)), hfound'.2.symm.trans (hall .after _ (Or.inr rfl))] at hafter
  rw [MethodDef.isAdvised, hbefore, hafter] at hadvised
  cases hadvised

/-- A phase has a hook of the member exactly if one of its hooks may decide. -/
theorem any_hooks {phase : Phase} {general special : Option Advice.Call} (hooks : m.Hooks phase general special)
    {calls : List Advice.Call}
    (h : calls = general.toList ++ special.toList ∨ calls = special.toList ++ general.toList) :
    (calls.any fun call => call.scope == .member) = special.isSome := by
  have hgeneral : (general.toList.any fun call => call.scope == .member) = false := by
    cases general with
    | none => rfl
    | some g => simp [(hooks.general g rfl).2.1]
  have hspecial : (special.toList.any fun call => call.scope == .member) = special.isSome := by
    cases special with
    | none => rfl
    | some s => simp [(hooks.special s rfl).2.1]
  rcases h with rfl | rfl
  · rw [List.any_append, hgeneral, hspecial, Bool.false_or]
  · rw [List.any_append, hgeneral, hspecial, Bool.or_false]

theorem assigned_watchStmts (general : Option Advice.Call) (args : List Arg) :
    (watchStmts b m general args).filterMap Stmt.assigned? = [] := by
  cases general <;> rfl

theorem assigned_leave (special : Option Advice.Call) (args : List Arg) (cls : String) :
    (decisionStmts b m .leaveOn special args cls).filterMap Stmt.assigned? =
      if special.isSome then [Alias.decisionSlot] else [] := by
  cases special <;> rfl

theorem assigned_replace (special : Option Advice.Call) (args : List Arg) (cls : String) :
    (decisionStmts b m .replaceOn special args cls).filterMap Stmt.assigned? =
      if special.isSome then [Alias.decisionSlot, Alias.returnSlot] else [] := by
  cases special <;> rfl

/-- What a class makes of the body of an advised method. -/
def advisedBody (b : Blueprint) (m : MethodDef) (general special : Option Advice.Call) (cls : String) (work : Work)
    (special' : Option Advice.Call) (cls' : String) (general' : Option Advice.Call) : List Stmt :=
  watchStmts b m general [.text m.memberId] ++ (decisionStmts b m .leaveOn special [] cls ++
    (.keep (work.within b.name) :: (decisionStmts b m .replaceOn special' [.name Alias.returnSlot] cls' ++
      (watchStmts b m general' [.text m.memberId, .name Alias.returnSlot] ++ [.finish]))))

theorem bodyOf_advised {general special general' special' : Option Advice.Call}
    (hooks : m.Hooks .before general special) (hbefore : m.before = general.toList ++ special.toList)
    (hooks' : m.Hooks .after general' special') (hafter : m.after = special'.toList ++ general'.toList)
    (hadvised : m.isAdvised = true) {body : List Stmt} (h : bodyOf b m (receiverOf m.signature.kind) = .ok body) :
    ∃ work cls cls', workOf b m (receiverOf m.signature.kind) = .ok work ∧
      (∀ call ∈ special, b.aliases.get? Verdict.shortCircuit.ref.path = some cls) ∧
      (∀ call ∈ special', b.aliases.get? Verdict.replace.ref.path = some cls') ∧
      body.map (Stmt.within b.name) = advisedBody b m general special cls work special' cls' general' := by
  obtain ⟨work, hwork, ⟨hplain, -⟩ | ⟨-, before, after, hb, ha, rfl⟩⟩ := bodyOf_eq_ok h
  · rw [hadvised] at hplain
    cases hplain
  rw [hbefore] at hb
  rw [hafter] at ha
  obtain ⟨cls, hcls, hb⟩ := beforeStmts_eq_ok hooks hb
  obtain ⟨cls', hcls', ha⟩ := afterStmts_eq_ok hooks' ha
  refine ⟨work, cls, cls', hwork, hcls, hcls', ?_⟩
  rw [List.map_append, List.map_append, List.map_append, hb, ha]
  simp only [List.map_cons, List.map_nil, List.append_assoc, List.cons_append, List.nil_append]
  rfl

theorem bodyOf_plain (hplain : m.isAdvised = false) {receiver : Option String} {body : List Stmt}
    (h : bodyOf b m receiver = .ok body) :
    ∃ work, workOf b m receiver = .ok work ∧ body.map (Stmt.within b.name) = [.give (work.within b.name)] := by
  obtain ⟨work, hwork, ⟨-, rfl⟩ | ⟨hadvised, -⟩⟩ := bodyOf_eq_ok h
  · exact ⟨work, hwork, rfl⟩
  · rw [hplain] at hadvised
    cases hadvised

/-- The locals that a body assigns are its slots. -/
theorem mem_assigned_advisedBody {general special general' special' : Option Advice.Call} {cls cls' : String} {work : Work}
    (hadvised : m.isAdvised = true) (hany : (m.before.any fun call => call.scope == .member) = special.isSome)
    (hany' : (m.after.any fun call => call.scope == .member) = special'.isSome) (name : String) :
    name ∈ (advisedBody b m general special cls work special' cls' general').filterMap Stmt.assigned? ↔ name ∈ m.slots := by
  rw [MethodDef.slots, if_pos hadvised, MethodDef.decides, hany, hany', advisedBody]
  simp only [List.filterMap_append, List.filterMap_cons, List.filterMap_nil, assigned_watchStmts, assigned_leave,
    assigned_replace, Stmt.assigned?]
  cases special <;> cases special' <;> simp <;> tauto

theorem slots_plain (hplain : m.isAdvised = false) : m.slots = [] := by
  rw [MethodDef.slots, hplain]
  rfl

theorem mem_assigned_body (built : m.IsBuilt b) {body : List Stmt} (h : bodyOf b m (receiverOf m.signature.kind) = .ok body)
    (name : String) : name ∈ (body.map (Stmt.within b.name)).filterMap Stmt.assigned? ↔ name ∈ m.slots := by
  obtain ⟨general, special, hooks, hbefore⟩ := built.before
  obtain ⟨general', special', hooks', hafter⟩ := built.after
  cases hadvised : m.isAdvised with
  | true =>
    obtain ⟨work, cls, cls', -, -, -, hbody⟩ := bodyOf_advised hooks hbefore hooks' hafter hadvised h
    rw [hbody]
    exact mem_assigned_advisedBody hadvised (any_hooks hooks (Or.inl hbefore)) (any_hooks hooks' (Or.inr hafter)) name
  | false =>
    obtain ⟨work, -, hbody⟩ := bodyOf_plain hadvised h
    rw [hbody, slots_plain hadvised]
    rfl

variable {W : Type} {x : Scene W} {o : Occasion} {locals : Entries Value}

/-- Where all names of a method mean what they should, its body does what the contract says. -/
theorem runBody_agrees (built : m.IsBuilt b) (apart : ∀ p ∈ m.signature.params, p.name ∉ m.identifiers b)
    (holds : m.NamesHold b) (lawful : x.Lawful b) (starts : o.Starts b m locals) {body : List Stmt}
    (h : bodyOf b m (receiverOf m.signature.kind) = .ok body) :
    Agree x.Inv (runBody x.surroundings locals (body.map (Stmt.within b.name))) (x.contract m o) := by
  obtain ⟨general, special, hooks, hbefore⟩ := built.before
  obtain ⟨general', special', hooks', hafter⟩ := built.after
  have hfound := find?_hooks hooks (Or.inl hbefore)
  have hfound' := find?_hooks hooks' (Or.inr hafter)
  have hstart : Ready m locals locals := fun _ _ => rfl
  unfold runBody Scene.contract MethodDef.hook?
  rw [Surroundings.hide_congr _ (mem_assigned_body built h)]
  simp only [hfound.1, hfound.2, hfound'.1, hfound'.2]
  by_cases hadvised : m.isAdvised = true
  · obtain ⟨work, cls, cls', hwork, hcls, hcls', hbody⟩ := bodyOf_advised hooks hbefore hooks' hafter hadvised h
    have hany := any_hooks hooks (Or.inl hbefore)
    have hany' := any_hooks hooks' (Or.inr hafter)
    have hslot : Alias.returnSlot ∈ m.slots := by
      rw [MethodDef.slots, if_pos hadvised]
      exact List.mem_cons_self
    rw [hbody]
    refine run_watch apart holds lawful starts hstart hadvised (fun call hcall => (hooks.general call hcall).1)
      (.text .nil) ?_
    refine run_leave built apart holds lawful starts hstart hadvised (fun call hcall => (hooks.special call hcall).1) hany
      hcls fun env ready => ?_
    refine (work_agrees built apart holds lawful starts ready hwork).bind (outcome_keeps lawful) fun r => ?_
    have hready := ready.put hslot r
    have hput : (env.put Alias.returnSlot r).get? Alias.returnSlot = some r := Entries.get?_put_self _ _ _
    refine run_replace built apart holds lawful starts hready hadvised (fun call hcall => (hooks'.special call hcall).1)
      hany' hcls' hput fun v env ready hv => ?_
    have hfront : Front env ([Arg.text m.memberId, .name Alias.returnSlot].map (Arg.within b.name)) [.str m.memberId, v] := by
      refine .text (.name ?_ .nil)
      rwa [Text.privateName_eq_self (by decide +kernel)]
    refine run_watch apart holds lawful starts ready hadvised (fun call hcall => (hooks'.general call hcall).1) hfront ?_
    show Agree x.Inv (lookUp _ env Alias.returnSlot) _
    rw [lookUp_eq_pure hv]
    exact Agree.refl _
  · rw [Bool.not_eq_true] at hadvised
    obtain ⟨work, hwork, hbody⟩ := bodyOf_plain hadvised h
    have hwork := work_agrees built apart holds lawful starts hstart hwork
    rw [MethodDef.isAdvised, Bool.or_eq_false_iff, Bool.not_eq_false', Bool.not_eq_false', List.isEmpty_iff,
      List.isEmpty_iff, hbefore, hafter, List.append_eq_nil_iff, List.append_eq_nil_iff, Option.toList_eq_nil_iff,
      Option.toList_eq_nil_iff, Option.toList_eq_nil_iff, Option.toList_eq_nil_iff] at hadvised
    obtain ⟨⟨rfl, rfl⟩, rfl, rfl⟩ := hadvised
    rw [hbody]
    unfold Scene.watch Scene.decision
    simp only [pure_bind, bind_pure]
    exact hwork

end Source

end Amalgam
