import Amalgam.Proofs.Source.Body

/-!
# Scenes with an alarm

In these scenes every call comes back at once with nothing, but the use of certain objects raises an alarm. A body that
has lost sight of such an object never raises it (`run_lands`), and one that has lost its test of decisions comes to no
good end at all (`run_fails`).
-/

namespace Amalgam

open Act (Lands lands_pure lands_throw)

/-- What raises the alarm: the use of an object, of the composite or of a symbol, for an attribute or for a call. -/
abbrev Trap := (object use : Option String) → Bool

/-- The failure of a use that raises the alarm. -/
def alarm : Failure := .raised "alarm"

namespace Trap

/-- The value of a name in the module of a composite. -/
def lookUp (b : Blueprint) (name : String) : Act Unit Value :=
  match b.aliases.find? fun e => b.aliases.get? e.1 == some name && Text.isComposed name with
  | some e => pure (.token e.1)
  | none =>
    if name = b.name ∧ Text.isComposed b.name = true then pure (.cls 0)
    else if name = "isinstance" then pure (.function 0)
    else throw (.fault .undefinedName)

variable (trap : Trap)

/-- The use of an object. -/
def use (object name : Option String) : Act Unit Value :=
  if trap object name then throw alarm else pure .none

theorem use_calm {trap : Trap} {object name : Option String} (h : trap object name = false) :
    trap.use object name = pure .none := by
  rw [use, h, if_neg (by decide)]

theorem use_rings {trap : Trap} {object name : Option String} (h : trap object name = true) :
    trap.use object name = throw alarm := by
  rw [use, h, if_pos rfl]

/-- Verdicts carry their values; other objects have all attributes, but nothing else has a value to carry. -/
def attr : Value → String → Act Unit Value
  | .verdict _ v, _ => pure v
  | .token path, name => use trap (some path) (some name)
  | .cls _, name => use trap none (some name)
  | _, name => if name = "value" then throw (.fault .attribute) else pure .none

/-- Tells whether a value is a verdict, given the class of one. -/
def tell (d : Value) (path : String) : Act Unit Value :=
  if path = Verdict.shortCircuit.ref.path then pure (.bool (d.isVerdict .shortCircuit))
  else if path = Verdict.replace.ref.path then pure (.bool (d.isVerdict .replace))
  else throw (.fault .type)

theorem tell_verdict (d : Value) (k : Verdict) : tell d k.ref.path = pure (.bool (d.isVerdict k)) := by
  unfold tell
  cases k with
  | shortCircuit => exact if_pos rfl
  | replace => rw [if_neg (by decide +kernel), if_pos rfl]

/-- Functions test values, composites cannot be called, and other calls return nothing. -/
def call : Value → List Value → Act Unit Value
  | .function _, [d, .token path] => tell d path
  | .function _, _ => throw (.fault .type)
  | .cls _, _ => throw (.fault .type)
  | .token path, _ => use trap (some path) none
  | _, _ => pure .none

/-- The scene of a blueprint with an alarm. -/
def scene (b : Blueprint) : Scene Unit where
  surroundings :=
    { lookUp := lookUp b
      attr := attr trap
      call := fun f args _ => call trap f args
      await := fun _ => pure .none
      shown := fun _ => pure ""
      className := fun _ => pure ""
      raise := fun text => throw (.raised text)
      unbound := throw (.fault .undefinedName)
      unassigned := throw (.fault .unassigned)
      misfit := throw (.fault .type) }
  Inv := fun _ => True
  object := .token
  composite := .cls 0
  test := .function 0

/-- What a name of the module stands for. -/
theorem lookUp_eq {b : Blueprint} {name : String} {v : Value} (h : (lookUp b name).runFrom () = (.ok v, ())) :
    (∃ path, v = .token path ∧ b.aliases.get? path = some name ∧ Text.isComposed name = true) ∨
      (v = .cls 0 ∧ name = b.name ∧ Text.isComposed b.name = true) ∨ (v = .function 0 ∧ name = "isinstance") := by
  unfold lookUp at h
  split at h
  · rename_i e he
    have hname := List.find?_some he
    rw [Bool.and_eq_true, beq_iff_eq] at hname
    cases h
    exact Or.inl ⟨e.1, rfl, hname.1, hname.2⟩
  · split at h
    · rename_i hb
      cases h
      exact Or.inr (Or.inl ⟨rfl, hb.1, hb.2⟩)
    · split at h
      · rename_i htest
        cases h
        exact Or.inr (Or.inr ⟨rfl, htest⟩)
      · cases h

theorem lookUp_symbol {b : Blueprint} {m : MethodDef} (built : m.IsBuilt b) {path name : String}
    (h : b.aliases.get? path = some name) (hcomposed : Text.isComposed name = true) : lookUp b name = pure (.token path) := by
  unfold lookUp
  split
  · rename_i e he
    have hname := List.find?_some he
    rw [Bool.and_eq_true, beq_iff_eq] at hname
    rw [built.injective hname.1 h]
  · rename_i hnone
    have := List.find?_eq_none.1 hnone _ (Entries.mem_of_get? h)
    simp [h, hcomposed] at this

theorem lookUp_other {b : Blueprint} {name : String} (h : ∀ path, b.aliases.get? path ≠ some name) :
    lookUp b name = if name = b.name ∧ Text.isComposed b.name = true then pure (.cls 0)
      else if name = "isinstance" then pure (.function 0) else throw (.fault .undefinedName) := by
  unfold lookUp
  rw [List.find?_eq_none.2 fun e _ => by simp [h e.1]]

/-- The scene keeps to the rules: its names stand for what they should. -/
theorem lawful {b : Blueprint} {m : MethodDef} (built : m.IsBuilt b) : (scene trap b).Lawful b where
  symbol := fun h hcomposed _ _ => by
    show (lookUp b _).runFrom _ = _
    rw [lookUp_symbol built h hcomposed]
    rfl
  composite := fun hcomposed _ _ => by
    show (lookUp b _).runFrom _ = _
    rw [lookUp_other fun path h => (built.fresh h).2 rfl, if_pos ⟨rfl, hcomposed⟩]
    rfl
  test := fun hne _ _ => by
    show (lookUp b _).runFrom _ = _
    rw [lookUp_other fun path h => (built.fresh h).1 (by decide), if_neg fun h => hne h.1.symm, if_pos rfl]
    rfl
  attr := fun _ _ _ _ => trivial
  call := fun _ _ _ _ _ => trivial
  await := fun _ _ _ => trivial
  tells := fun d k _ _ => by
    show (tell d k.ref.path).runFrom _ = _
    rw [tell_verdict]
  carries := fun _ _ _ _ => rfl

/-! ## What the contract comes to -/

section Contract

variable {trap : Trap} {b : Blueprint} {m : MethodDef} {o : Occasion}

/-- A hook returns nothing, if its use raises no alarm. -/
theorem hook_calm (hreceiver : ∀ v ∈ o.receiver, v = .none) {call : Advice.Call} {phase : Phase} {member : String}
    (hhook : call.hook = Advice.hook phase member) (quiet : o.receiver = none → trap none (some call.hook) = false)
    (front : List Value) : ((scene trap b).hook m o call front).runFrom () = (.ok .none, ()) := by
  have hattr : attr trap (o.receiver.getD (.cls 0)) call.hook = pure .none := by
    cases hr : o.receiver with
    | none =>
      exact use_calm (quiet hr)
    | some v =>
      rw [hreceiver v hr]
      have hne : call.hook ≠ "value" := by
        rw [hhook]
        intro heq
        have := congrArg (fun s => s.toList.head?) heq
        unfold Advice.hook at this
        rw [String.toList_append] at this
        cases phase <;> exact absurd this (by simp [Phase.mark])
      exact if_neg hne
  show (attr trap (o.receiver.getD (.cls 0)) call.hook >>= _).runFrom () = _
  rw [hattr, pure_bind]
  show Act.runFrom (if (call.isAsync && m.signature.isAsync) = true then pure Value.none else pure Value.none) () = _
  rw [ite_self]
  rfl

/-- It raises the alarm, if its use through the composite does. -/
theorem hook_rings (hreceiver : o.receiver = none) {call : Advice.Call} (rings : trap none (some call.hook) = true)
    (front : List Value) : ((scene trap b).hook m o call front).runFrom () = (.error alarm, ()) := by
  show (attr trap (o.receiver.getD (.cls 0)) call.hook >>= _).runFrom () = _
  rw [hreceiver]
  show (trap.use none (some call.hook) >>= _).runFrom () = _
  rw [use_rings rings]
  rfl

/-- A contributor gives nothing, or raises the alarm. -/
theorem contribution_eq (target : MemberCall) :
    ((scene trap b).contribution m o target).runFrom () =
      (trap.use (some target.contributor) (some target.member)).runFrom () := by
  show ((trap.use (some target.contributor) (some target.member) >>= fun f =>
    if m.signature.kind = .ofClass then attr trap f "__func__" else pure f) >>= _).runFrom () = _
  cases h : trap (some target.contributor) (some target.member) with
  | true =>
    rw [use_rings h]
    rfl
  | false =>
    have hfunc : (if m.signature.kind = .ofClass then attr trap .none "__func__" else pure .none) = pure .none := by
      split
      · rfl
      · rfl
    rw [use_calm h, pure_bind, hfunc, pure_bind]
    show Act.runFrom (if m.signature.isAsync = true then pure Value.none else pure Value.none) () = _
    rw [ite_self]

theorem contributions_calm {targets : List MemberCall}
    (quiet : ∀ t ∈ targets, trap (some t.contributor) (some t.member) = false) :
    ∃ results, (targets.mapM ((scene trap b).contribution m o)).runFrom () = (.ok results, ()) := by
  induction targets with
  | nil => exact ⟨[], rfl⟩
  | cons t targets ih =>
    obtain ⟨results, hrest⟩ := ih fun t ht => quiet t (List.mem_cons_of_mem _ ht)
    refine ⟨.none :: results, ?_⟩
    rw [List.mapM_cons, Act.runFrom_bind, contribution_eq, use_calm (quiet t List.mem_cons_self)]
    show Act.runFrom (_ >>= _) () = _
    rw [Act.runFrom_bind, hrest]
    rfl

theorem contributions_ring {targets : List MemberCall}
    (rings : ∃ t ∈ targets, trap (some t.contributor) (some t.member) = true) :
    (targets.mapM ((scene trap b).contribution m o)).runFrom () = (.error alarm, ()) := by
  induction targets with
  | nil =>
    obtain ⟨_, h, _⟩ := rings
    cases h
  | cons t targets ih =>
    rw [List.mapM_cons, Act.runFrom_bind, contribution_eq]
    cases h : trap (some t.contributor) (some t.member) with
    | true =>
      rw [use_rings h]
      rfl
    | false =>
      rw [use_calm h]
      show Act.runFrom (_ >>= _) () = _
      obtain ⟨t', ht', h'⟩ := rings
      rcases List.mem_cons.1 ht' with rfl | ht'
      · rw [h] at h'
        cases h'
      · rw [Act.runFrom_bind, ih ⟨t', ht', h'⟩]

/-- All contributors together give nothing, if none of them raises the alarm, nor the function that combines them. -/
theorem outcome_calm (quiet : ∀ path ∈ m.calledPaths, ∀ use, trap (some path) use = false) :
    ((scene trap b).outcome m o).runFrom () = (.ok .none, ()) := by
  have htargets : ∀ t ∈ m.core.targets, trap (some t.contributor) (some t.member) = false := fun t ht =>
    quiet _ (List.mem_append_left _ (List.mem_map_of_mem ht)) _
  unfold Scene.outcome
  cases hcore : m.core with
  | call target =>
    rw [hcore] at htargets
    show ((scene trap b).contribution m o target).runFrom () = _
    rw [contribution_eq, use_calm (htargets target (List.mem_singleton_self _))]
    rfl
  | combine f targets =>
    rw [hcore] at htargets
    obtain ⟨results, hresults⟩ : ∃ results, (targets.mapM ((scene trap b).contribution m o)).runFrom () =
      (.ok results, ()) := contributions_calm htargets
    have hf : f ∈ m.calledPaths := by
      rw [MethodDef.calledPaths, hcore]
      exact List.mem_append_right _ (List.mem_singleton_self _)
    show (targets.mapM _ >>= fun _ => trap.use (some f) none).runFrom () = _
    rw [Act.runFrom_bind, hresults, use_calm (quiet f hf none)]
    rfl

/-- The use of one of them raises the alarm. -/
theorem outcome_rings
    (rings : (∃ t ∈ m.core.targets, trap (some t.contributor) (some t.member) = true) ∨
      (∀ t ∈ m.core.targets, trap (some t.contributor) (some t.member) = false) ∧
        ∃ f targets, m.core = .combine f targets ∧ trap (some f) none = true) :
    ((scene trap b).outcome m o).runFrom () = (.error alarm, ()) := by
  unfold Scene.outcome
  cases hcore : m.core with
  | call target =>
    rw [hcore] at rings
    show ((scene trap b).contribution m o target).runFrom () = _
    rcases rings with ⟨t, ht, h⟩ | ⟨-, _, _, hcombine, -⟩
    · rw [List.mem_singleton.1 ht] at h
      rw [contribution_eq, use_rings h]
      rfl
    · cases hcombine
  | combine f targets =>
    rw [hcore] at rings
    show (targets.mapM _ >>= fun _ => trap.use (some f) none).runFrom () = _
    rw [Act.runFrom_bind]
    rcases rings with hring | ⟨quiet, _, _, hcombine, h⟩
    · have hring : (targets.mapM ((scene trap b).contribution m o)).runFrom () = (.error alarm, ()) :=
        contributions_ring hring
      rw [hring]
    · cases hcombine
      obtain ⟨results, hresults⟩ : ∃ results, (targets.mapM ((scene trap b).contribution m o)).runFrom () =
        (.ok results, ()) := contributions_calm quiet
      rw [hresults, use_rings h]
      rfl

theorem hook?_eq_some {phase : Phase} {member : String} {call : Advice.Call} (h : m.hook? phase member = some call) :
    call.hook = Advice.hook phase member := by
  unfold MethodDef.hook? at h
  have := List.find?_some h
  exact eq_of_beq this

section Calm

variable (hreceiver : ∀ v ∈ o.receiver, v = .none) (quiet : o.receiver = none → ∀ use, trap none use = false)

include hreceiver quiet

theorem watch_calm (phase : Phase) (member : String) (front : List Value) :
    ((scene trap b).watch m o (m.hook? phase member) front).runFrom () = (.ok (), ()) := by
  unfold Scene.watch
  cases h : m.hook? phase member with
  | none => rfl
  | some call =>
    show Act.runFrom (_ >>= _) () = _
    rw [Act.runFrom_bind, hook_calm hreceiver (hook?_eq_some h) fun hr => quiet hr _]
    rfl

theorem decision_calm (phase : Phase) (member : String) (front : List Value) :
    ∃ d, (d = none ∨ d = some .none) ∧
      ((scene trap b).decision m o (m.hook? phase member) front).runFrom () = (.ok d, ()) := by
  unfold Scene.decision
  cases h : m.hook? phase member with
  | none => exact ⟨none, Or.inl rfl, rfl⟩
  | some call =>
    refine ⟨some .none, Or.inr rfl, ?_⟩
    show Act.runFrom (_ >>= _) () = _
    rw [Act.runFrom_bind, hook_calm hreceiver (hook?_eq_some h) fun hr => quiet hr _]
    rfl

/-- The contract comes to what the contributors do, if no hook raises the alarm. -/
theorem contract_outcome {r : Except Failure Value} (h : ((scene trap b).outcome m o).runFrom () = (r, ())) :
    ((scene trap b).contract m o).runFrom () = (r, ()) := by
  obtain ⟨d, hd, hdecision⟩ := decision_calm (b := b) (m := m) hreceiver quiet .before m.name []
  unfold Scene.contract
  rw [Act.runFrom_bind, watch_calm hreceiver quiet]
  show Act.runFrom (_ >>= _) () = _
  rw [Act.runFrom_bind, hdecision]
  rcases hd with rfl | rfl
  all_goals
    show Act.runFrom (_ >>= _) () = _
    rw [Act.runFrom_bind, h]
    cases r with
    | error e => rfl
    | ok result =>
      obtain ⟨d, hd, hdecision⟩ := decision_calm (b := b) (m := m) hreceiver quiet .after m.name [result]
      show Act.runFrom (_ >>= _) () = _
      rw [Act.runFrom_bind, hdecision]
      rcases hd with rfl | rfl
      all_goals
        show Act.runFrom (pure result >>= _) () = _
        rw [pure_bind, Act.runFrom_bind, watch_calm hreceiver quiet]
        rfl

end Calm

section Rings

variable (hreceiver : o.receiver = none) (rings : ∀ name, trap none (some name) = true)

include hreceiver rings

theorem watch_rings {phase : Phase} {member : String} (planned : m.hook? phase member ≠ none) (front : List Value) :
    ((scene trap b).watch m o (m.hook? phase member) front).runFrom () = (.error alarm, ()) := by
  obtain ⟨call, hcall⟩ := Option.ne_none_iff_exists'.1 planned
  rw [hcall]
  show Act.runFrom (_ >>= _) () = _
  rw [Act.runFrom_bind, hook_rings hreceiver (rings _)]

theorem decision_rings {phase : Phase} {member : String} (planned : m.hook? phase member ≠ none) (front : List Value) :
    ((scene trap b).decision m o (m.hook? phase member) front).runFrom () = (.error alarm, ()) := by
  obtain ⟨call, hcall⟩ := Option.ne_none_iff_exists'.1 planned
  rw [hcall]
  show Act.runFrom (_ >>= _) () = _
  rw [Act.runFrom_bind, hook_rings hreceiver (rings _)]

/-- The contract raises the alarm with its first hook, before or after the contributors. -/
theorem contract_rings (calm : ((scene trap b).outcome m o).runFrom () = (.ok .none, ()))
    (planned : ∃ phase member, (member = Advice.all ∨ member = m.name) ∧ m.hook? phase member ≠ none) :
    ((scene trap b).contract m o).runFrom () = (.error alarm, ()) := by
  unfold Scene.contract
  by_cases h₁ : m.hook? .before Advice.all = none
  case neg => rw [Act.runFrom_bind, watch_rings hreceiver rings h₁]
  rw [h₁]
  show Act.runFrom (pure () >>= _) () = _
  rw [pure_bind]
  by_cases h₂ : m.hook? .before m.name = none
  case neg => rw [Act.runFrom_bind, decision_rings hreceiver rings h₂]
  rw [h₂]
  show Act.runFrom (pure none >>= _) () = _
  rw [pure_bind]
  show Act.runFrom ((scene trap b).outcome m o >>= _) () = _
  rw [Act.runFrom_bind, calm]
  show Act.runFrom ((scene trap b).decision m o _ _ >>= _) () = _
  by_cases h₃ : m.hook? .after m.name = none
  case neg => rw [Act.runFrom_bind, decision_rings hreceiver rings h₃]
  rw [h₃]
  show Act.runFrom (pure none >>= _) () = _
  rw [pure_bind]
  show Act.runFrom (pure Value.none >>= _) () = _
  rw [pure_bind]
  by_cases h₄ : m.hook? .after Advice.all = none
  case neg => rw [Act.runFrom_bind, watch_rings hreceiver rings h₄]
  obtain ⟨phase, member, rfl | rfl, hne⟩ := planned
  all_goals cases phase
  · exact absurd h₁ hne
  · exact absurd h₄ hne
  · exact absurd h₂ hne
  · exact absurd h₃ hne

end Rings

end Contract

/-! ## What a body comes to -/

/-- The values that calls return, and that stand for arguments. -/
def isBlank : Value → Bool
  | .none => true
  | .bool _ => true
  | .tuple _ => true
  | .dict _ => true
  | _ => false

/-- A value of which the code of a class cannot make a use that raises the alarm; verdicts are kept out as well. -/
def Harmless (trap : Trap) (owner : String) : Value → Prop
  | .verdict _ _ => False
  | .token path => ∀ use : Option String, trap (some path) (use.map (Text.privateName owner)) = false
  | .cls _ => ∀ use : Option String, trap none (use.map (Text.privateName owner)) = false
  | _ => True

/-- Locals with blank values only, next to which no name leads to the alarm. -/
structure Safe (trap : Trap) (b : Blueprint) (names : List String) (env : Entries Value) : Prop where
  blank : ∀ {name v}, env.get? name = some v → isBlank v = true
  outer : ∀ name, env.get? (Text.privateName b.name name) = none →
    Lands (Harmless trap b.name) (· ≠ alarm)
      (((scene trap b).surroundings.hide names).lookUp (Text.privateName b.name name))

section Body

variable {trap : Trap} {b : Blueprint} {names : List String} {env : Entries Value}

theorem harmless_of_isBlank {owner : String} {v : Value} (h : isBlank v = true) : Harmless trap owner v := by
  cases v with
  | verdict => cases h
  | token => cases h
  | cls => cases h
  | _ => trivial

/-- A name that is no local leads to no alarm, if what it stands for does not. -/
theorem outer_lands {owner name : String}
    (h : name ∉ names → ∀ v, (lookUp b name).runFrom () = (.ok v, ()) → Harmless trap owner v) :
    Lands (Harmless trap owner) (· ≠ alarm) (((scene trap b).surroundings.hide names).lookUp name) := by
  show Lands _ _ (if names.contains name then throw (.fault .unassigned) else lookUp b name)
  by_cases hslot : name ∈ names
  · rw [if_pos (by simpa using hslot)]
    exact lands_throw (by decide)
  rw [if_neg (by simpa using hslot)]
  have hvalue := h hslot
  unfold lookUp at hvalue ⊢
  split at hvalue
  · exact lands_pure (hvalue _ rfl)
  · split at hvalue
    · rename_i hb
      rw [if_pos hb]
      exact lands_pure (hvalue _ rfl)
    · rename_i hb
      rw [if_neg hb]
      split at hvalue
      · rename_i htest
        rw [if_pos htest]
        exact lands_pure (hvalue _ rfl)
      · rename_i htest
        rw [if_neg htest]
        exact lands_throw (by decide)

theorem Safe.put (h : Safe trap b names env) (slot : String) {v : Value} (hv : isBlank v = true) :
    Safe trap b names (env.put slot v) := by
  constructor
  · intro name w hw
    by_cases hname : name = slot
    · rw [hname, Entries.get?_put_self] at hw
      cases hw
      exact hv
    · rw [Entries.get?_put_of_ne _ _ hname] at hw
      exact h.blank hw
  · intro name hnone
    refine h.outer name ?_
    by_cases hname : Text.privateName b.name name = slot
    · rw [hname, Entries.get?_put_self] at hnone
      cases hnone
    · rwa [Entries.get?_put_of_ne _ _ hname] at hnone

theorem use_lands {object name : Option String} (h : trap object name = false) :
    Lands (isBlank · = true) (· ≠ alarm) (trap.use object name) := by
  rw [use_calm h]
  exact lands_pure rfl

theorem attr_lands {v : Value} (hv : Harmless trap b.name v) (name : String) :
    Lands (isBlank · = true) (· ≠ alarm) (attr trap v (Text.privateName b.name name)) := by
  unfold attr
  split
  · exact hv.elim
  · exact use_lands (hv (some name))
  · exact use_lands (hv (some name))
  · split
    · exact lands_throw (by decide)
    · exact lands_pure rfl

theorem call_lands {f : Value} (hf : Harmless trap b.name f) (args : List Value) :
    Lands (isBlank · = true) (· ≠ alarm) (call trap f args) := by
  unfold call
  split
  · unfold tell
    split
    · exact lands_pure rfl
    · split
      · exact lands_pure rfl
      · exact lands_throw (by decide)
  · exact lands_throw (by decide)
  · exact lands_throw (by decide)
  · exact use_lands (hf none)
  · exact lands_pure rfl

variable (safe : Safe trap b names env)

include safe

theorem lookUp_lands (name : String) :
    Lands (Harmless trap b.name) (· ≠ alarm)
      (Source.lookUp ((scene trap b).surroundings.hide names) env (Text.privateName b.name name)) := by
  unfold Source.lookUp
  split
  · rename_i v hv
    exact lands_pure (harmless_of_isBlank (safe.blank hv))
  · rename_i hnone
    exact safe.outer name hnone

theorem target_lands (t : Source.Target) :
    Lands (Harmless trap b.name) (· ≠ alarm)
      ((t.within b.name).eval ((scene trap b).surroundings.hide names) env) := by
  refine (lookUp_lands safe t.head).bind fun v hv => Act.lands_foldlM (fun w name hname hw => ?_) hv
  obtain ⟨written, -, rfl⟩ := List.mem_map.1 hname
  exact (attr_lands hw written).mono (fun _ => harmless_of_isBlank) fun _ => id

theorem evalArgs_lands (args : List Source.Arg) (vs : List Value) (ks : Entries Value) :
    Lands (fun _ => True) (· ≠ alarm)
      (Source.evalArgs ((scene trap b).surroundings.hide names) env vs ks (args.map (Source.Arg.within b.name))) := by
  induction args generalizing vs ks with
  | nil => exact lands_pure trivial
  | cons arg args ih =>
    cases arg with
    | name n => exact (lookUp_lands safe n).bind fun v _ => ih _ _
    | text t => exact ih _ _
    | spread n =>
      refine (lookUp_lands safe n).bind fun v _ => ?_
      split
      · exact ih _ _
      · exact lands_pure trivial
    | named k n =>
      refine (lookUp_lands safe n).bind fun v _ => ?_
      split
      · exact ih _ _
      · exact lands_pure trivial
    | spreadNamed n =>
      refine (lookUp_lands safe n).bind fun v _ => ?_
      split
      · exact ih _ _
      · exact lands_pure trivial

theorem call_eval_lands (c : Source.Call) :
    Lands (isBlank · = true) (· ≠ alarm) ((c.within b.name).eval ((scene trap b).surroundings.hide names) env) := by
  refine (target_lands safe c.target).bind fun f hf => (evalArgs_lands safe c.args _ _).bind fun r _ => ?_
  split
  · exact lands_throw (by decide)
  · refine (call_lands hf _).bind fun v hv => ?_
    split
    · exact lands_pure rfl
    · exact lands_pure hv

theorem evalCalls_lands (cs : List Source.Call) :
    Lands (fun _ => True) (· ≠ alarm)
      (Source.evalCalls ((scene trap b).surroundings.hide names) env (cs.map (Source.Call.within b.name))) := by
  induction cs with
  | nil => exact lands_pure trivial
  | cons c cs ih => exact (call_eval_lands safe c).bind fun _ _ => ih.bind fun _ _ => lands_pure trivial

theorem work_lands (w : Source.Work) :
    Lands (isBlank · = true) (· ≠ alarm) ((w.within b.name).eval ((scene trap b).surroundings.hide names) env) := by
  cases w with
  | call c => exact call_eval_lands safe c
  | combine f cs =>
    exact (lookUp_lands safe f).bind fun fv hf => (evalCalls_lands safe cs).bind fun vs _ => call_lands hf vs

theorem isDecided_lands (cls : String) :
    Lands (fun _ => True) (· ≠ alarm)
      (Source.isDecided ((scene trap b).surroundings.hide names) env (Text.privateName b.name cls)) := by
  have htest := lookUp_lands safe "isinstance"
  have hdecision := lookUp_lands safe Alias.decisionSlot
  rw [Text.privateName_eq_self (by decide +kernel)] at htest hdecision
  refine htest.bind fun f hf => hdecision.bind fun d _ => (lookUp_lands safe cls).bind fun c _ => ?_
  refine (call_lands hf _).bind fun r _ => ?_
  split <;> exact lands_pure trivial

theorem carried_lands : Lands (isBlank · = true) (· ≠ alarm) (do
    let d ← Source.lookUp ((scene trap b).surroundings.hide names) env Alias.decisionSlot
    attr trap d "value") := by
  have hdecision := lookUp_lands safe Alias.decisionSlot
  rw [Text.privateName_eq_self (by decide +kernel)] at hdecision
  refine hdecision.bind fun d hd => ?_
  have hattr := attr_lands hd "value"
  rwa [Text.privateName_eq_self (by decide +kernel)] at hattr

omit safe in
/-- No body that is safe raises the alarm. -/
theorem run_lands (body : List Source.Stmt) (safe : Safe trap b names env) :
    Lands (fun _ => True) (· ≠ alarm)
      (Source.run ((scene trap b).surroundings.hide names) env (body.map (Source.Stmt.within b.name))) := by
  induction body generalizing env with
  | nil => exact lands_pure trivial
  | cons stmt body ih =>
    cases stmt with
    | observe c => exact (call_eval_lands safe c).bind fun _ _ => ih safe
    | decide c => exact (call_eval_lands safe c).bind fun v hv => ih (safe.put _ hv)
    | leaveOn cls =>
      refine (isDecided_lands safe cls).bind fun d _ => ?_
      split
      · exact (carried_lands safe).mono (fun _ _ => trivial) fun _ => id
      · exact ih safe
    | keep w => exact (work_lands safe w).bind fun v hv => ih (safe.put _ hv)
    | replaceOn cls =>
      refine (isDecided_lands safe cls).bind fun d _ => ?_
      split
      · have hrest := (carried_lands safe).bind fun v hv => ih (safe.put Alias.returnSlot hv)
        rwa [bind_assoc] at hrest
      · exact ih safe
    | finish =>
      have hslot := lookUp_lands safe Alias.returnSlot
      rw [Text.privateName_eq_self (by decide +kernel)] at hslot
      exact hslot.mono (fun _ _ => trivial) fun _ => id
    | give w => exact (work_lands safe w).mono (fun _ _ => trivial) fun _ => id

/-! ## Tests that are lost -/

/-- Whether a statement ends a body. -/
def ends : Source.Stmt → Bool
  | .finish => true
  | .give _ => true
  | _ => false

/-- The test of decisions is hidden by the composite, or the class that it asks for by a local. -/
def Lost (b : Blueprint) (env : Entries Value) (cls : String) : Prop :=
  b.name = "isinstance" ∨ ∃ v, env.get? (Text.privateName b.name cls) = some v

omit safe in
theorem Lost.put {cls : String} (h : Lost b env cls) (slot : String) (v : Value) : Lost b (env.put slot v) cls := by
  refine h.imp id ?_
  rintro ⟨w, hw⟩
  by_cases hname : Text.privateName b.name cls = slot
  · rw [hname]
    exact ⟨v, Entries.get?_put_self _ _ _⟩
  · refine ⟨w, ?_⟩
    rw [Entries.get?_put_of_ne _ _ hname]
    exact hw

section Fails

variable {m : MethodDef} (built : m.IsBuilt b) (hslot : Alias.decisionSlot ∈ names) (hshown : "isinstance" ∉ names)
  (free : env.get? "isinstance" = none)

include hslot in
theorem carried_fails : Lands (fun _ => False) (fun _ => True) (do
    let d ← Source.lookUp ((scene trap b).surroundings.hide names) env Alias.decisionSlot
    attr trap d "value") := by
  have hvalue : Lands (isBlank · = true) (fun _ => True)
      (Source.lookUp ((scene trap b).surroundings.hide names) env Alias.decisionSlot) := by
    unfold Source.lookUp
    split
    · rename_i v hv
      exact lands_pure (safe.blank hv)
    · show Lands _ _ (if names.contains Alias.decisionSlot then throw (.fault .unassigned) else _)
      rw [if_pos (by simpa using hslot)]
      exact lands_throw trivial
  refine hvalue.bind fun d hd => ?_
  unfold attr
  split
  · cases hd
  · cases hd
  · cases hd
  · rw [if_pos rfl]
    exact lands_throw trivial

include built hshown free in
theorem isDecided_fails {cls : String} (lost : Lost b env cls) :
    Lands (fun _ => False) (fun _ => True)
      (Source.isDecided ((scene trap b).surroundings.hide names) env (Text.privateName b.name cls)) := by
  have htest : Source.lookUp ((scene trap b).surroundings.hide names) env "isinstance" =
      if b.name = "isinstance" then pure (.cls 0) else pure (.function 0) := by
    unfold Source.lookUp
    rw [free]
    show (if names.contains "isinstance" then _ else lookUp b "isinstance") = _
    rw [if_neg (by simpa using hshown), lookUp_other fun path h => (built.fresh h).1 (by decide)]
    by_cases hname : b.name = "isinstance"
    · rw [if_pos hname, hname, if_pos ⟨rfl, by decide +kernel⟩]
    · rw [if_neg hname, if_neg fun h => hname h.1.symm, if_pos rfl]
  have hdecision := lookUp_lands safe Alias.decisionSlot
  rw [Text.privateName_eq_self (by decide +kernel)] at hdecision
  unfold Source.isDecided
  rw [htest]
  by_cases hname : b.name = "isinstance"
  · rw [if_pos hname, pure_bind]
    refine (hdecision.mono (fun _ => id) fun _ _ => trivial).bind fun d _ => ?_
    refine ((lookUp_lands safe cls).mono (fun _ => id) fun _ _ => trivial).bind fun c _ => ?_
    exact (lands_throw trivial : Lands (fun _ => False) _ (throw (.fault .type))).bind fun _ h => h.elim
  · obtain ⟨v, hv⟩ := lost.resolve_left hname
    rw [if_neg hname, pure_bind]
    refine (hdecision.mono (fun _ => id) fun _ _ => trivial).bind fun d _ => ?_
    rw [Source.lookUp_eq_pure hv, pure_bind]
    have hcall : call trap (.function 0) [d, v] = throw (.fault .type) := by
      have hblank := safe.blank hv
      cases v with
      | token => cases hblank
      | _ => rfl
    show Lands _ _ (call trap (.function 0) [d, v] >>= _)
    rw [hcall]
    exact (lands_throw trivial : Lands (fun _ => False) _ (throw (.fault .type))).bind fun _ h => h.elim

omit safe in
include built hslot hshown in
/-- A body that has lost a test comes to no good end, if it does not end before that test. -/
theorem run_fails {before rest : List Source.Stmt} (hbefore : ∀ s ∈ before, ends s = false) {cls : String}
    {test : Source.Stmt} (htest : test = .leaveOn cls ∨ test = .replaceOn cls) (safe : Safe trap b names env)
    (free : env.get? "isinstance" = none) (lost : Lost b env cls) :
    Lands (fun _ => False) (fun _ => True) (Source.run ((scene trap b).surroundings.hide names) env
      ((before ++ test :: rest).map (Source.Stmt.within b.name))) := by
  have hfree : ∀ {env : Entries Value} {slot : String} (v : Value), env.get? "isinstance" = none → slot ≠ "isinstance" →
      (env.put slot v).get? "isinstance" = none := by
    intro env slot v free hne
    rw [Entries.get?_put_of_ne _ _ hne.symm]
    exact free
  induction before generalizing env with
  | nil =>
    rcases htest with rfl | rfl
    all_goals exact (isDecided_fails safe built hshown free lost).bind fun _ h => h.elim
  | cons stmt before ih =>
    obtain ⟨hstmt, hbefore⟩ := List.forall_mem_cons.1 hbefore
    have ih := fun {env} => @ih env hbefore
    cases stmt with
    | observe c =>
      exact ((call_eval_lands safe c).mono (fun _ => id) fun _ _ => trivial).bind fun _ _ => ih safe free lost
    | decide c =>
      refine ((call_eval_lands safe c).mono (fun _ => id) fun _ _ => trivial).bind fun v hv => ?_
      exact ih (safe.put _ hv) (hfree v free (by decide)) (lost.put _ v)
    | leaveOn other =>
      refine ((isDecided_lands safe other).mono (fun _ => id) fun _ _ => trivial).bind fun d _ => ?_
      split
      · exact carried_fails safe hslot
      · exact ih safe free lost
    | keep w =>
      refine ((work_lands safe w).mono (fun _ => id) fun _ _ => trivial).bind fun v hv => ?_
      exact ih (safe.put _ hv) (hfree v free (by decide)) (lost.put _ v)
    | replaceOn other =>
      refine ((isDecided_lands safe other).mono (fun _ => id) fun _ _ => trivial).bind fun d _ => ?_
      split
      · have hrest := (carried_fails safe hslot).bind fun v h =>
          (h.elim : Lands (fun _ => False) _ (Source.run ((scene trap b).surroundings.hide names)
            (env.put Alias.returnSlot v) ((before ++ test :: rest).map (Source.Stmt.within b.name))))
        rwa [bind_assoc] at hrest
      · exact ih safe free lost
    | finish => cases hstmt
    | give w => cases hstmt

end Fails

end Body

end Trap

end Amalgam
