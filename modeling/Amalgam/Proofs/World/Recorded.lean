import Amalgam.Proofs.Literal.Record
import Amalgam.Proofs.Source.Prelude
import Amalgam.Proofs.World.Definition

/-!
# Composites record their contributors

Code that was made for a composite defines a class of the composite's name that records its contributors, unless a method
or a function stands in the place of the record or sets the name (`World.composite_of_execute`).
-/

namespace Amalgam

namespace Source

/-- Code of a composite of some name that records its contributors. -/
def Code.Serves (code : Code) (name : String) : Prop :=
  ∃ b isArtifact, b.Records ∧ b.name = name ∧ compile isArtifact b = .ok code

/-- Code that serves for a composite of some name, or that does not know the name. -/
def Code.Suits (code : Code) (name : String) : Prop :=
  code.Serves name ∨ code.cls.name ≠ name ∧ ∀ i ∈ code.imports, i.boundAs ≠ name

variable {b : Blueprint} {cls : Class} {base : SymbolRef} {mixins : List SymbolRef} {sets : List String}
  {copied : List FieldDef}

theorem fieldLine_name {f : FieldDef} {line : FieldLine} (h : fieldLine b f = .ok line) : line.name = f.name :=
  congrArg Line.name (fieldLine_line h)

/-- The line of a record has the text of the record for its value. -/
theorem fieldLine_reserved {line : FieldLine} (h : fieldLine b (Fields.reserved base mixins sets) = .ok line) :
    line.value = some (.literal (Fields.metadataText base.path (mixins.map SymbolRef.path) sets)) := by
  unfold fieldLine Fields.reserved at h
  simp only [Fields.isLiteral_metadataText, Bool.false_eq_true, if_false, if_true] at h
  obtain ⟨_, -, h⟩ := Outcome.bind_eq_ok.1 h
  cases h
  rfl

/-- The class in the code of a composite: its first field is the record of the contributors, and no other line has that name. -/
theorem record_of_classOf (hfields : b.fields = Fields.reserved base mixins sets :: copied)
    (hcopied : ∀ f ∈ copied, f.name ≠ reservedField) (unrecorded : reservedField ∉ b.memberNames)
    (h : classOf b = .ok cls) : ∃ line rest, cls.fields = line :: rest ∧ line.name = reservedField ∧
      line.value = some (.literal (Fields.metadataText base.path (mixins.map SymbolRef.path) sets)) ∧
      (∀ g ∈ rest, g.name ≠ reservedField) ∧ ∀ m ∈ cls.methods, m.name ≠ reservedField := by
  obtain ⟨hlines, hmethods, -⟩ := classOf_eq_ok h
  rw [hfields] at hlines
  obtain ⟨line, rest, hline, hrest, hcls⟩ := List.forall₂_cons_left_iff.1 (Outcome.mapM_eq_ok.1 hlines)
  refine ⟨line, rest, hcls, fieldLine_name hline, fieldLine_reserved hline, ?_, ?_⟩
  · intro g hg
    obtain ⟨f, hf, hfg⟩ := Outcome.exists_mem_of_forall₂ hrest.flip hg
    rw [fieldLine_name hfg]
    exact hcopied f hf
  · intro m hm
    obtain ⟨d, hd, hdm⟩ := Outcome.exists_mem_of_forall₂ (Outcome.mapM_eq_ok.1 hmethods).flip hm
    rw [(methodOf_eq_ok hdm).1]
    exact fun heq => unrecorded (heq ▸ List.mem_map_of_mem hd)

end Source

namespace World

/-- The names that may be set: not what a class is called, nor the record of its contributors. -/
def Settable (name : String) : Prop := name ≠ "__name__" ∧ name ≠ reservedField

/-- Code that suits and gives a class serves for it. -/
theorem serves_of_execute {w w' : World} {l : Launch} {code : Source.Code} {id : Nat} (hseed : l.seed = [])
    (suits : code.Suits l.name) (h : (execute l code).runFrom w = (.ok id, w')) : code.Serves l.name := by
  rcases suits with serves | ⟨hcls, himports⟩
  · exact serves
  · rcases knows_of_execute h hseed with heq | ⟨i, hi, heq⟩
    · exact absurd heq hcls
    · exact absurd heq (himports i hi)

/-- A class that is defined stores the record of its contributors, if nothing else has its name and nothing sets it. -/
theorem Defines.record {S : String → Prop} {w w' : World} {home id : Nat} {cls : Source.Class} {b : Blueprint}
    {base : SymbolRef} {mixins : List SymbolRef} {sets : List String} {copied : List FieldDef}
    (h : Defines S home cls w id w') (kept : ¬S reservedField) (hcls : Source.classOf b = .ok cls)
    (hfields : b.fields = Fields.reserved base mixins sets :: copied) (hcopied : ∀ f ∈ copied, f.name ≠ reservedField)
    (unrecorded : reservedField ∉ b.memberNames) : (w'.cls id).slots.get? reservedField =
      some (.value (Fields.metadata base.path (mixins.map SymbolRef.path) sets)) := by
  obtain ⟨line, rest, hlines, hfirst, hvalue, hrest, hmethods⟩ :=
    Source.record_of_classOf hfields hcopied unrecorded hcls
  obtain ⟨start, s, made, hleaves, hslots⟩ := h.slots
  obtain ⟨v, hget⟩ := get?_slots_of_first hleaves hlines hvalue hfirst hrest hmethods
  rw [hslots reservedField kept, hget, literalValue, Fields.read?_metadataText]
  rfl

/-- Code that serves for a composite gives a new class of its name that records its contributors. -/
theorem composite_of_execute {w w' : World} {l : Launch} {code : Source.Code} {id : Nat} (tame : Tame Settable w)
    (serves : code.Serves l.name) (h : (execute l code).runFrom w = (.ok id, w')) :
    w.classes.size ≤ id ∧ (w'.cls id).name = l.name ∧
      ∃ es, (w'.cls id).slots.get? reservedField = some (.value (.dict es)) := by
  obtain ⟨b, isArtifact, ⟨⟨base, mixins, sets, copied, hfields, hcopied⟩, unrecorded⟩, hname, hcode⟩ := serves
  have hcls := Source.classOf_of_compile hcode
  have hasked : code.cls.name = l.name := (Source.nodeName_eq_ok (Source.classOf_eq_ok hcls).2.2).trans hname
  obtain ⟨m, u, -, hdefines, rfl⟩ := defined_of_execute tame h hasked
  exact ⟨hdefines.new, (hdefines.name fun hset => hset.1 rfl).trans hasked, _,
    hdefines.record (fun hset => hset.2 rfl) hcls hfields hcopied unrecorded⟩

end World

end Amalgam
