import Amalgam.Proofs.Source.Hygiene
import Amalgam.Proofs.Text.Split
import Amalgam.World.Execution

/-!
# Marks while a class is put together

The body of a class stores its fields and methods one after another, and the marks of static and class methods are
looked up among them first. A run stores a mark exactly if a line before did (`mem_slots_of_run`), so where the lines
leave the marks to later ones, every method is marked as it should be (`decorate_of_leaves`).
-/

namespace Amalgam

namespace World

open Source (Line FieldLine Method marks)

variable {s s' : Scope} {w w' : World}

/-! ## What one line stores -/

/-- An attribute that is set below a name changes nothing of the scope. -/
theorem setBelow_eq_ok {value : Option Value} {target : Value} {path : List String} (h : (do
      match value, path.getLast? with
      | some v, some last =>
        let owner ← path.dropLast.foldlM behaviour.attr target
        behaviour.setAttr owner last v
      | _, _ => pure ()
      return s : Act World Scope).runFrom w = (.ok s', w')) : s' = s := by
  cases value with
  | none =>
    cases h
    rfl
  | some v =>
    cases hlast : path.getLast? with
    | none =>
      rw [hlast] at h
      cases h
      rfl
    | some last =>
      rw [hlast] at h
      obtain ⟨owner, _, -, h⟩ := Act.bind_eq_ok.1 h
      obtain ⟨_, _, -, h⟩ := Act.bind_eq_ok.1 h
      cases h
      rfl

/-- A field is stored under its name if it has a value and its name is no attribute of another. -/
theorem runField_shape {f : FieldLine} (h : (s.runField f).runFrom w = (.ok s', w')) :
    ∃ slots hints, s' = { s with slots, hints } ∧
      ((f.value = none ∨ ∀ piece, Text.splitOnChar '.' f.name ≠ [piece]) ∧ slots = s.slots ∨
        f.value.isSome = true ∧ ∃ slot, slots = s.slots.put (Text.privateName s.owner f.name) slot) := by
  obtain ⟨value, u, hvalue, h⟩ := Act.bind_eq_ok.1 h
  have hsome : f.value = none ∧ value = none ∨ f.value.isSome = true ∧ ∃ v, value = some v := by
    cases hf : f.value with
    | none =>
      rw [hf] at hvalue
      cases hvalue
      exact Or.inl ⟨rfl, rfl⟩
    | some init =>
      rw [hf] at hvalue
      obtain ⟨v, _, -, hvalue⟩ := Act.bind_eq_ok.1 hvalue
      cases hvalue
      exact Or.inr ⟨rfl, v, rfl⟩
  cases hpieces : Text.splitOnChar '.' f.name with
  | nil =>
    rw [hpieces] at h
    cases h
    exact ⟨_, _, rfl, Or.inl ⟨Or.inr (by simp), rfl⟩⟩
  | cons head rest =>
    rw [hpieces] at h
    cases rest with
    | nil =>
      have hhead := Text.eq_of_splitOnChar hpieces
      rcases hsome with ⟨hf, rfl⟩ | ⟨hf, v, rfl⟩
      · cases h
        exact ⟨_, _, rfl, Or.inl ⟨Or.inl hf, rfl⟩⟩
      · cases h
        exact ⟨_, _, rfl, Or.inr ⟨hf, _, by rw [← hhead]⟩⟩
    | cons next rest =>
      have hsame : s' = s := by
        cases hget : s.slots.get? (Text.privateName s.owner head) with
        | some slot =>
          simp only [List.map_cons, hget] at h
          exact setBelow_eq_ok h
        | none =>
          simp only [List.map_cons, hget] at h
          obtain ⟨target, x, -, h⟩ := Act.bind_eq_ok.1 h
          exact setBelow_eq_ok h
      exact ⟨s.slots, s.hints, hsame, Or.inl ⟨Or.inr (by simp), rfl⟩⟩

theorem runField_eq_ok {f : FieldLine} (h : (s.runField f).runFrom w = (.ok s', w')) : s'.owner = s.owner ∧
    ((f.value = none ∨ ∀ piece, Text.splitOnChar '.' f.name ≠ [piece]) ∧ s'.slots = s.slots ∨
      f.value.isSome = true ∧ ∃ slot, s'.slots = s.slots.put (Text.privateName s.owner f.name) slot) := by
  obtain ⟨slots, hints, rfl, hslots⟩ := runField_shape h
  exact ⟨rfl, hslots⟩

/-- A method is stored under its name. -/
theorem runMethod_shape {c : Method} (h : (s.runMethod c).runFrom w = (.ok s', w')) :
    ∃ slot, s' = { s with slots := s.slots.put (Text.privateName s.owner c.name) slot } := by
  obtain ⟨params, u, -, h⟩ := Act.bind_eq_ok.1 h
  obtain ⟨now, v, -, h⟩ := Act.bind_eq_ok.1 h
  obtain ⟨f, x, -, h⟩ := Act.bind_eq_ok.1 h
  obtain ⟨slot, y, -, h⟩ := Act.bind_eq_ok.1 h
  cases h
  exact ⟨slot, rfl⟩

theorem runMethod_eq_ok {c : Method} (h : (s.runMethod c).runFrom w = (.ok s', w')) : s'.owner = s.owner ∧
    ∃ slot, s'.slots = s.slots.put (Text.privateName s.owner c.name) slot := by
  obtain ⟨slot, rfl⟩ := runMethod_shape h
  exact ⟨rfl, slot, rfl⟩

/-! ## Which marks a run stores -/

variable {mark : String} (hmark : mark ∈ marks)

/-- What a line says of a mark is what a run of it does to the scope. -/
def Scope.Stores (s s' : Scope) (lines : List Line) (mark : String) : Prop :=
  s'.owner = s.owner ∧ (mark ∈ s'.slots.keys ↔ mark ∈ s.slots.keys ∨ ∃ l ∈ lines, l.binds = true ∧ l.name = mark)

include hmark

theorem privateName_mark {owner name : String} : Text.privateName owner name = mark ↔ name = mark := by
  refine Text.privateName_eq_plain_iff ?_
  unfold marks at hmark
  revert mark
  decide +kernel

theorem splitOnChar_mark : Text.splitOnChar '.' mark = [mark] := by
  unfold marks at hmark
  revert mark
  decide +kernel

theorem stores_runField {f : FieldLine} (h : (s.runField f).runFrom w = (.ok s', w')) : s.Stores s' [f.line] mark := by
  obtain ⟨howner, ⟨hnothing, hslots⟩ | ⟨hvalue, slot, hslots⟩⟩ := runField_eq_ok h
  · refine ⟨howner, ?_⟩
    rw [hslots]
    refine (or_iff_left ?_).symm
    rintro ⟨l, hl, hbinds, hname⟩
    rw [List.mem_singleton.1 hl] at hbinds hname
    rcases hnothing with hnone | hpieces
    · have : f.value.isSome = true := hbinds
      rw [hnone] at this
      cases this
    · have hname : f.name = mark := hname
      exact hpieces mark (by rw [hname, splitOnChar_mark hmark])
  · refine ⟨howner, ?_⟩
    rw [hslots, Entries.mem_keys_put, eq_comm, privateName_mark hmark]
    simp [FieldLine.line, hvalue, or_comm]

theorem stores_runMethod {c : Method} (h : (s.runMethod c).runFrom w = (.ok s', w')) : s.Stores s' [c.line] mark := by
  obtain ⟨howner, slot, hslots⟩ := runMethod_eq_ok h
  refine ⟨howner, ?_⟩
  rw [hslots, Entries.mem_keys_put, eq_comm, privateName_mark hmark]
  simp [Method.line, or_comm]

omit hmark in
/-- Steps that store marks as their lines say do so one after another. -/
theorem stores_foldlM {α : Type} (step : Scope → α → Act World Scope) (line : α → Line)
    (hstep : ∀ {s s' : Scope} {w w' : World} {a : α}, (step s a).runFrom w = (.ok s', w') → s.Stores s' [line a] mark)
    {as : List α} (h : (as.foldlM step s).runFrom w = (.ok s', w')) : s.Stores s' (as.map line) mark := by
  induction as generalizing s w with
  | nil =>
    cases h
    exact ⟨rfl, by simp⟩
  | cons a as ih =>
    rw [List.foldlM_cons] at h
    obtain ⟨next, u, hnext, h⟩ := Act.bind_eq_ok.1 h
    obtain ⟨howner, hkeys⟩ := hstep hnext
    obtain ⟨howner', hkeys'⟩ := ih h
    refine ⟨howner'.trans howner, ?_⟩
    rw [hkeys', hkeys, or_assoc]
    simp

/-- A run of a class up to some method has stored a mark exactly if a line before that method does. -/
theorem mem_slots_of_run {k : Source.Class} {done : List Method} {home : Nat} {u : World} {between : Scope}
    (hfields : (k.fields.foldlM Scope.runField { home, owner := k.name }).runFrom w = (.ok between, u))
    (hmethods : (done.foldlM Scope.runMethod between).runFrom u = (.ok s', w')) :
    mark ∈ s'.slots.keys ↔ ∃ l ∈ k.fields.map FieldLine.line ++ done.map Method.line, l.binds = true ∧ l.name = mark := by
  obtain ⟨-, hfields⟩ := stores_foldlM Scope.runField FieldLine.line (fun h => stores_runField hmark h) hfields
  obtain ⟨-, hmethods⟩ := stores_foldlM Scope.runMethod Method.line (fun h => stores_runMethod hmark h) hmethods
  rw [hmethods, hfields]
  simp [Entries.keys, or_and_right, exists_or]

omit hmark in
/-- Where lines leave the marks to later ones, each method gets the mark of its kind, and no other. -/
theorem decorate_of_leaves {k : Source.Class} (leaves : k.lines.Pairwise Line.Leaves) {done rest : List Method} {c : Method}
    (hmethods : k.methods = done ++ c :: rest) {home : Nat} {u : World} {between : Scope}
    (hfields : (k.fields.foldlM Scope.runField { home, owner := k.name }).runFrom w = (.ok between, u))
    (hdone : (done.foldlM Scope.runMethod between).runFrom u = (.ok s', w')) (f : Nat) :
    s'.decorate c.kind f = pure (.routine c.kind f) := by
  have hlines : k.lines = (k.fields.map FieldLine.line ++ done.map Method.line) ++ c.line :: rest.map Method.line := by
    rw [Source.Class.lines, hmethods, List.map_append, List.map_cons, List.append_assoc]
  have hfree : c.kind ≠ .ofInstance → ∀ mark ∈ marks, s'.slots.get? mark = none := by
    intro hkind mark hmark
    rw [Entries.get?_eq_none_iff, mem_slots_of_run hmark hfields hdone]
    rintro ⟨l, hl, hbinds, hname⟩
    rw [hlines] at leaves
    have hevaluates : c.line.evaluates = true := by simpa [Method.line] using hkind
    exact (List.pairwise_append.1 leaves).2.2 l hl c.line List.mem_cons_self hbinds hevaluates (hname ▸ hmark)
  cases hkind : c.kind with
  | ofInstance => rfl
  | ofClass =>
    unfold Scope.decorate
    simp only [hfree (by rw [hkind]; decide) "classmethod" (by decide)]
  | static =>
    unfold Scope.decorate
    simp only [hfree (by rw [hkind]; decide) "staticmethod" (by decide)]

end World

end Amalgam
