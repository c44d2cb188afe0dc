import Amalgam.Proofs.World.Making

/-!
# What a class stores of its fields

Where one line alone stores something under a name, the class has what that line gives where it is run
(`World.Defines.exists_field`); where none does, it has nothing (`World.Defines.get?_slots_of_silent`). What the other lines of
the class do is up to them, as long as they set the name on no class.
-/

namespace Amalgam

open Text (privateName)

namespace World

variable {S : String → Prop} {w w' : World} {home id : Nat} {c : Source.Class} {s : Scope} {M : Module} {name : String}

/-- A value that is stored as it is would be so ever after. -/
theorem Evolves.slotOf_eq (h : Evolves S w w') {v : Value} (hv : w.slotOf v = .value v) : w'.slotOf v = .value v := by
  cases v with
  | function f =>
    unfold slotOf at hv ⊢
    dsimp only at hv ⊢
    cases hF : w.function? f with
    | none =>
      rw [hF] at hv
      cases hv
    | some F =>
      rw [h.function? hF]
      rwa [hF] at hv
  | _ => rfl

/-! ## One line alone -/

section Line

variable {done rest : List Source.FieldLine} {line : Source.FieldLine} (hfields : c.fields = done ++ line :: rest)
  (passive : line.IsPassive M.names c.name)
  (others : ∀ g ∈ done ++ rest, privateName c.name g.name ≠ line.name)
  (apart : ∀ m ∈ c.methods, privateName c.name m.name ≠ line.name)
  (tame : Tame S w) (sets : ∀ f ∈ c.fields, f.SetsIn S) (hM : w.modules[home]? = some M)

include hfields passive others apart tame sets hM

/-- The lines of a class leave what the only line of a name gives, where the lines before have been run. -/
theorem Leaves.exists_field (h : Leaves home c w s w') : ∃ u value, Evolves S w u ∧ line.Gives u M.names c.name value ∧
    s.slots.get? line.name = value.map u.slotOf := by
  obtain ⟨between, v, hrun, hmethods⟩ := h
  rw [hfields, List.foldlM_append] at hrun
  obtain ⟨before, u, hdone, hrun⟩ := Act.bind_eq_ok.1 hrun
  rw [List.foldlM_cons] at hrun
  obtain ⟨after, u', hline, hrest⟩ := Act.bind_eq_ok.1 hrun
  have hfaithful : Act.Faithful S (done.foldlM Scope.runField { home, owner := c.name }) :=
    Act.Faithful.foldlM (fun s f hf => faithful_runField s (sets f (hfields ▸ List.mem_append_left _ hf))) _
  obtain ⟨howner, hhome⟩ := place_foldlM (fun f s w s' w' => place_runField) hdone
  obtain ⟨-, hbefore⟩ := get?_slots_of_otherFields (fun g hg => others g (List.mem_append_left _ hg)) rfl hdone
  obtain ⟨rfl, value, gives, rfl⟩ := runField_of_passive (M := M) (by rwa [howner])
    (by rw [hhome, hfaithful.modules_eq tame hdone]; exact hM) hline
  rw [howner] at gives
  refine ⟨u', value, hfaithful.evolves tame hdone, gives, ?_⟩
  obtain ⟨howner', hkept⟩ := get?_slots_of_otherFields (fun g hg => others g (List.mem_append_right _ hg)) (by exact howner) hrest
  rw [get?_slots_of_others apart howner' hmethods, hkept]
  cases value with
  | none => exact hbefore
  | some v => exact Entries.get?_put_self _ _ _

/-- So does the class that is defined by them. -/
theorem Defines.exists_field (h : Defines S home c w id w') (kept : ¬S line.name) : ∃ u value, Evolves S w u ∧
    line.Gives u M.names c.name value ∧
    (w'.cls id).slots.get? line.name = (value.map u.slotOf).map (impliedKind line.name) := by
  obtain ⟨bases, s, start, made, order, derives, body, number, known, linear, keeps, evolves⟩ := h
  obtain rfl := world_of_bases derives
  obtain ⟨u, value, hev, gives, hslot⟩ := body.exists_field hfields passive others apart tame sets hM
  refine ⟨u, value, hev, gives, ?_⟩
  rw [keeps.slots _ kept, ← hslot]
  exact Entries.get?_map _ _ _

end Line

/-- Under a name that no line stores, a class that is defined has nothing. -/
theorem Defines.get?_slots_of_silent (h : Defines S home c w id w') (kept : ¬S name)
    (fields : ∀ g ∈ c.fields, privateName c.name g.name ≠ name) (methods : ∀ m ∈ c.methods, privateName c.name m.name ≠ name) :
    (w'.cls id).slots.get? name = none := by
  obtain ⟨start, s, made, ⟨between, v, hfields, hmethods⟩, hslots⟩ := h.slots
  obtain ⟨howner, hget⟩ := get?_slots_of_otherFields fields rfl hfields
  rw [hslots name kept, get?_slots_of_others methods howner hmethods, hget]
  rfl

end World

end Amalgam
