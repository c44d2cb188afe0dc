import Amalgam.Combination
import Amalgam.Proofs.Blueprint.Hooks
import Amalgam.Proofs.Source.Alarm

/-!
# Verdicts of several hooks

Where several contributors define the hook of a member, its method joins what they return, and the method of the member
goes by the joint value. That is the last value that is something, so a verdict counts exactly if silence alone follows it
(`Value.lastWord_eq_some_iff`): a later hook that returns anything else takes it back (`Source.verdict_agrees`).
-/

namespace Amalgam

open Act (Agree Keeps)
open Source (runBody methodOf)

/-! ## The last word -/

/-- What a value carries, if it is a verdict of the kind. -/
def Value.carried (k : Verdict) : Value → Option Value
  | .verdict l v => if k = l then some v else Option.none
  | _ => Option.none

/-- What the joint value of several hooks carries, if it is a verdict of the kind. -/
def Value.lastWord (k : Verdict) (vs : List Value) : Option Value := (Combination.lastDecision.combine vs).carried k

theorem Value.carried_eq_some {k : Verdict} {d v : Value} : d.carried k = some v ↔ d = .verdict k v := by
  cases d with
  | verdict l w =>
    unfold carried
    by_cases hk : k = l
    · simp [hk]
    · simp [hk, Ne.symm hk]
  | _ => simp [carried]

/-- A decision carries a verdict of the kind or does not. -/
theorem Value.bind_carried_cases (d : Option Value) (k : Verdict) :
    (∃ v, d = some (.verdict k v) ∧ d.bind (carried k) = some v) ∨
      (∀ v, d ≠ some (.verdict k v)) ∧ d.bind (carried k) = Option.none := by
  cases h : d.bind (carried k) with
  | some v =>
    obtain ⟨u, hu, hv⟩ := Option.bind_eq_some_iff.1 h
    exact Or.inl ⟨v, by rw [hu, carried_eq_some.1 hv], rfl⟩
  | none =>
    refine Or.inr ⟨fun v hd => ?_, rfl⟩
    rw [hd, Option.bind_some, carried_eq_some.2 rfl] at h
    cases h

theorem Combination.isSomething_eq_false {u : Value} : isSomething u = false ↔ u = .none := by
  cases u <;> simp [isSomething]

/-- A verdict has the last word exactly if every value after it is nothing. -/
theorem Value.lastWord_eq_some_iff {k : Verdict} {vs : List Value} {v : Value} :
    lastWord k vs = some v ↔ ∃ earlier later, vs = earlier ++ .verdict k v :: later ∧ ∀ u ∈ later, u = .none := by
  have hgiven : ∀ d : Option Value, d.getD .none = .verdict k v ↔ d = some (.verdict k v) := by
    intro d
    cases d <;> simp
  have hnothing : ∀ u : Value, (!Combination.isSomething u) = true ↔ u = .none := fun u => by
    rw [Bool.not_eq_true', Combination.isSomething_eq_false]
  unfold lastWord
  rw [carried_eq_some, show Combination.lastDecision.combine vs = (vs.reverse.find? Combination.isSomething).getD .none from rfl,
    hgiven, List.find?_eq_some_iff_append]
  simp only [hnothing]
  constructor
  · rintro ⟨-, later, earlier, hvs, hlater⟩
    refine ⟨earlier.reverse, later.reverse, ?_, fun u hu => hlater u (List.mem_reverse.1 hu)⟩
    rw [← List.reverse_reverse vs, hvs]
    simp
  · rintro ⟨earlier, later, rfl, hlater⟩
    exact ⟨rfl, later.reverse, earlier.reverse, by simp, fun u hu => hlater u (List.mem_reverse.1 hu)⟩

/-! ## The contract by its decisions -/

/-- The verdict that counts in a phase. -/
def Phase.verdict : Phase → Verdict
  | before => .shortCircuit
  | after => .replace

/-- What the hook of a member learns in front of the arguments: nothing before the call, and the result after it. -/
def Phase.front (result : Value) : Phase → List Value
  | before => []
  | after => [result]

namespace Scene

variable {W : Type} (x : Scene W) (m : MethodDef) (o : Occasion)

/-- What is decided in a phase: the value that the verdict of the member's hook carries, if it gives one that counts. -/
def verdict (phase : Phase) (result : Value) : Act W (Option Value) := do
  return (← x.decision m o (m.hook? phase m.name) (phase.front result)).bind (Value.carried phase.verdict)

/-- What a method does, given what is decided: no contributor is called if the first decision gives a value. -/
def contractBy (rule : Phase → Value → Act W (Option Value)) : Act W Value := do
  x.watch m o (m.hook? .before Advice.all) [.str m.memberId]
  match ← rule .before .none with
  | some v => return v
  | none =>
    let result ← x.outcome m o
    let result := (← rule .after result).getD result
    x.watch m o (m.hook? .after Advice.all) [.str m.memberId, result]
    return result

theorem contract_eq_contractBy : x.contract m o = x.contractBy m o (x.verdict m o) := by
  unfold contract contractBy verdict
  simp only [bind_assoc, pure_bind]
  refine bind_congr fun _ => bind_congr fun d => ?_
  rw [show Phase.verdict .before = .shortCircuit from rfl, show Phase.verdict .after = .replace from rfl]
  rcases Value.bind_carried_cases d .shortCircuit with ⟨v, rfl, hd⟩ | ⟨hother, hd⟩
  · rw [hd]
  · rw [hd]
    split
    · exact absurd rfl (hother _)
    · refine bind_congr fun result => bind_congr fun d => ?_
      rcases Value.bind_carried_cases d .replace with ⟨v, rfl, hd⟩ | ⟨hother, hd⟩
      · rw [hd]
        simp
      · rw [hd]
        split
        · exact absurd rfl (hother _)
        · simp

/-- A method without hooks does what its contributors do. -/
theorem contract_of_plain {m : MethodDef} (hplain : ∀ phase, m.calls phase = []) : x.contract m o = x.outcome m o := by
  have hnone : ∀ phase member, m.hook? phase member = none := by
    intro phase member
    have := hplain phase
    cases phase <;> exact (congrArg _ this).trans rfl
  unfold contract watch decision
  simp only [hnone, pure_bind, bind_pure]

/-- The hook that a call of the method finds is that of a method of the composite, whose code runs with a receiver of its own. -/
def Reaches (b : Blueprint) (call : Advice.Call) (front : List Value) (own : MethodDef) (receiver : Option Value) : Prop :=
  ∃ code locals, methodOf b own = .ok code ∧ Occasion.Starts ⟨receiver, front ++ o.args, o.keywords⟩ b own locals ∧
    Agree x.Inv (x.hook m o call front) (runBody x.surroundings locals (code.within b.name).body)

end Scene

/-! ## The hooks of a member -/

/-- The hook of a member is found among the calls of its phase, and it is not the one of all members. -/
theorem MethodDef.IsBuilt.mem_calls {b : Blueprint} {m : MethodDef} (built : m.IsBuilt b) {phase : Phase} {call : Advice.Call}
    (h : m.hook? phase m.name = some call) :
    call ∈ m.calls phase ∧ call.hook = Advice.hook phase m.name ∧ call.scope = .member ∧ m.name ≠ Advice.all := by
  have hmem : call ∈ m.calls phase := by
    cases phase <;> exact List.mem_of_find?_eq_some h
  obtain ⟨general, special, hooks, hcalls⟩ : ∃ general special, m.Hooks phase general special ∧
      (m.calls phase = general.toList ++ special.toList ∨ m.calls phase = special.toList ++ general.toList) := by
    cases phase with
    | before =>
      obtain ⟨general, special, hooks, hcalls⟩ := built.before
      exact ⟨general, special, hooks, Or.inl hcalls⟩
    | after =>
      obtain ⟨general, special, hooks, hcalls⟩ := built.after
      exact ⟨general, special, hooks, Or.inr hcalls⟩
  have hfound : m.hook? phase m.name = special := by
    cases phase <;> exact (Source.find?_hooks hooks hcalls).2
  exact ⟨hmem, hooks.special call (hfound ▸ h)⟩

/-- Hooks carry no advice themselves. -/
theorem MethodDef.PlannedFrom.plain {c : Blueprint.Context} {m : MethodDef} {definitions : List (SymbolRef × Signature)}
    (h : m.PlannedFrom c definitions) (hhook : Advice.isHook m.name = true) (phase : Phase) : m.calls phase = [] := by
  have hwoven : (c.plan m.name).calls phase = [] := by
    cases phase with
    | before => exact (Advice.weave_of_isHook hhook).1
    | after => exact (Advice.weave_of_isHook hhook).2
  rw [h.calls_eq, hwoven, List.filter_nil]

theorem Advice.isHook_hook (phase : Phase) (member : String) : isHook (hook phase member) = true := by
  unfold isHook
  rw [Bool.or_eq_true, String.startsWith_string_iff, String.startsWith_string_iff]
  unfold hook
  rw [String.toList_append]
  cases phase with
  | before => exact Or.inl (List.prefix_append _ _)
  | after => exact Or.inr (List.prefix_append _ _)

/-- The hook of one member is joined by the last decision. -/
theorem Blueprint.Defaults.specOf_hook (d : Defaults) {phase : Phase} {member : String} (hmember : member ≠ Advice.all) :
    (d.specOf (Advice.hook phase member)).function = .lastDecision := by
  have hspecial : Advice.isCatchAll (Advice.hook phase member) = false := by
    unfold Advice.isCatchAll
    rw [Bool.or_eq_false_iff, beq_eq_false_iff_ne, beq_eq_false_iff_ne]
    exact ⟨fun h => hmember (Advice.hook_injective h).2, fun h => hmember (Advice.hook_injective h).2⟩
  rw [specOf, hspecial]
  rfl

/-- Whoever is called gives a fixed answer: a contributor by its path, and the hooks of the composite under no path. -/
def Scene.staged (b : Blueprint) (answers : String → Value) : Scene Unit :=
  let calm := Trap.scene (fun _ _ => false) b
  { calm with
    surroundings :=
      { calm.surroundings with
        attr := fun v _ => match v with
          | .verdict _ v => pure v
          | .token path => pure (.bound 0 (.str path))
          | _ => pure (.bound 0 (.str ""))
        call := fun f args _ => match f, args with
          | .function _, [d, .token path] => Trap.tell d path
          | .token _, vs => pure (Combination.lastDecision.combine vs)
          | .bound _ (.str path), _ => pure (answers path)
          | _, _ => throw (.fault .type) } }

theorem Scene.lawful_staged {b : Blueprint} {m : MethodDef} (built : m.IsBuilt b) (answers : String → Value) :
    (staged b answers).Lawful b where
  symbol := (Trap.lawful (fun _ _ => false) built).symbol
  composite := (Trap.lawful (fun _ _ => false) built).composite
  test := (Trap.lawful (fun _ _ => false) built).test
  attr := fun _ _ _ _ => trivial
  call := fun _ _ _ _ _ => trivial
  await := fun _ _ _ => trivial
  tells := (Trap.lawful (fun _ _ => false) built).tells
  carries := fun _ _ _ _ => rfl

/-- A method without parameters starts with its receiver alone. -/
theorem Occasion.starts_plain {b : Blueprint} {m : MethodDef} (hkind : m.signature.kind = .ofInstance)
    (hparams : m.signature.params = []) (v : Value) : Occasion.Starts ⟨some v, [], []⟩ b m [("self", v)] where
  receiver := by rw [hkind]; rfl
  known := by
    unfold MethodDef.localNames
    rw [hkind, hparams]
    exact List.Subset.refl _
  params := ⟨[], [], by rw [hparams]; exact .nil, by simp⟩
  distinct := List.nodup_nil

/-- The timer has a veto, and the log has something to say. -/
def Scene.vetoed (path : String) : Value :=
  if path = "shop:Timer" then .verdict .shortCircuit (.int 5)
  else if path = "shop:Cart" then .int 1
  else .str "seen"

namespace Sale

/-- The methods of a watched cart: a payment, and the hooks around it. -/
def pay : MethodDef :=
  { name := "pay", memberId := "Sale.pay", signature := { name := "pay" }, reference := "shop:Cart"
    core := .call ⟨"shop:Cart", "pay"⟩
    before := [⟨"BEFORE_ALL", .before, .catchAll, false⟩, ⟨"BEFORE_pay", .before, .member, false⟩] }

def beforeAll : MethodDef :=
  { name := "BEFORE_ALL", memberId := "Sale.BEFORE_ALL", signature := { name := "BEFORE_ALL" }, reference := "shop:Timer"
    core := .call ⟨"shop:Timer", "BEFORE_ALL"⟩ }

def beforePay : MethodDef :=
  { name := "BEFORE_pay", memberId := "Sale.BEFORE_pay", signature := { name := "BEFORE_pay" }, reference := "shop:Timer"
    core := .combine "class_mixer.combinators:last_decision"
      [⟨"shop:Timer", "BEFORE_pay"⟩, ⟨"shop:Log", "BEFORE_pay"⟩] }

end Sale

end Amalgam
