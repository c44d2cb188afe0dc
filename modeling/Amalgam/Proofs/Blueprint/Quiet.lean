import Amalgam.Blueprint.Build

/-!
# Steps that ask nothing

The steps that go by names and tables alone come to the same from every state (`Planner.Quiet`): they ask no provider, and
what was noted before does not matter to them.
-/

namespace Amalgam

variable {σ α β : Type}

namespace Planner

/-- From every state the same outcome and the same notices, and the provider is left alone. -/
def Quiet (x : Planner σ α) : Prop :=
  ∃ r told, ∀ t, x.runFrom t = (r, { t with notices := t.notices ++ told })

theorem quiet_of_outcome {x : Planner σ α} {r : Except Failure α} (h : ∀ t, x.runFrom t = (r, t)) : Quiet x :=
  ⟨r, [], fun t => by rw [h, List.append_nil]⟩

theorem quiet_pure (a : α) : Quiet (pure a : Planner σ α) := quiet_of_outcome fun _ => rfl

theorem quiet_ofExcept (r : Except Failure α) : Quiet (Act.ofExcept r : Planner σ α) := quiet_of_outcome fun _ => rfl

theorem quiet_note (n : Notice) : Quiet (note n : Planner σ Unit) := ⟨.ok ⟨⟩, [n], fun _ => rfl⟩

theorem quiet_unknown (strict : Bool) (cause : Unknown) : Quiet (unknown strict cause : Planner σ Unit) := by
  cases strict with
  | true => exact quiet_of_outcome fun _ => rfl
  | false => exact quiet_note _

theorem Quiet.bind {x : Planner σ α} {f : α → Planner σ β} (hx : Quiet x) (hf : ∀ a, Quiet (f a)) :
    Quiet (x >>= f) := by
  obtain ⟨r, told, hx⟩ := hx
  cases r with
  | error e => exact ⟨.error e, told, fun t => by rw [Act.runFrom_bind, hx]⟩
  | ok a =>
    obtain ⟨r, more, hf⟩ := hf a
    refine ⟨r, told ++ more, fun t => ?_⟩
    rw [Act.runFrom_bind, hx]
    dsimp only
    rw [hf, List.append_assoc]

end Planner

open Planner

theorem CombinatorSpec.quiet_resolve (member : String) (contributors : List SymbolRef) (spec : Option CombinatorSpec) :
    Quiet (resolve member contributors spec : Planner σ _) := by
  unfold resolve
  split
  · exact quiet_pure _
  split
  · exact quiet_pure _
  dsimp only
  split
  · exact (quiet_note _).bind fun _ => quiet_pure _
  · exact quiet_pure _

theorem Cutpoints.quiet_usable (strict : Bool) (phase : Phase) (members names : List String) :
    Quiet (usable strict phase members names : Planner σ _) := by
  induction names with
  | nil => exact quiet_pure _
  | cons name rest ih =>
    unfold usable
    split
    · exact ih.bind fun _ => quiet_pure _
    split
    · exact (quiet_unknown _ _).bind fun _ => ih
    split
    · exact (quiet_unknown _ _).bind fun _ => ih
    · exact ih.bind fun _ => quiet_pure _

namespace Blueprint

theorem quiet_knownSpecs (strict : Bool) (members : List String) (specs : Entries CombinatorSpec) :
    Quiet (knownSpecs strict members specs : Planner σ _) := by
  induction specs with
  | nil => exact quiet_pure _
  | cons e rest ih =>
    obtain ⟨member, spec⟩ := e
    unfold knownSpecs
    split
    · exact ih.bind fun _ => quiet_pure _
    · exact (quiet_unknown _ _).bind fun _ => ih

theorem quiet_dropAwaited (strict : Bool) (member : String) (calls : List Advice.Call) :
    Quiet (dropAwaited strict member calls : Planner σ _) := by
  induction calls with
  | nil => exact quiet_pure _
  | cons call rest ih =>
    unfold dropAwaited
    split
    · exact (quiet_unknown _ _).bind fun _ => ih
    · exact ih.bind fun _ => quiet_pure _

theorem quiet_usablePlan (strict : Bool) (member : String) (isAsync : Bool) (plan : Advice.Plan) :
    Quiet (usablePlan strict member isAsync plan : Planner σ _) := by
  unfold usablePlan
  split
  · exact quiet_pure _
  · refine (quiet_dropAwaited strict member _).bind fun before => ?_
    exact (quiet_dropAwaited strict member _).bind fun after => quiet_pure _

theorem quiet_planMethod (strict : Bool) (c : Context) (member : String) (definitions : List (SymbolRef × Signature)) :
    Quiet (planMethod strict c member definitions : Planner σ _) := by
  unfold planMethod
  split
  · exact quiet_pure _
  dsimp only
  split
  · exact quiet_pure _
  refine (CombinatorSpec.quiet_resolve member _ _).bind fun joined => ?_
  obtain ⟨spec, ordered⟩ := joined
  refine (quiet_usablePlan strict member _ _).bind fun plan => ?_
  exact (quiet_ofExcept _).bind fun method => quiet_pure _

theorem quiet_planMethods (strict : Bool) (c : Context) (members : MemberMap) :
    Quiet (planMethods strict c members : Planner σ _) := by
  induction members with
  | nil => exact quiet_pure _
  | cons e rest ih =>
    obtain ⟨member, definitions⟩ := e
    unfold planMethods
    exact (quiet_planMethod strict c member definitions).bind fun here => ih.bind fun more => quiet_pure _

end Blueprint

end Amalgam
