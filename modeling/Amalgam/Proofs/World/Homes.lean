import Amalgam.Proofs.World.Definition

/-!
# Classes that stay in their modules

Code no line of which is for the name or the module of a class defines a class that stands in the module it is run in
(`World.housed_of_execute`). It stays there as long as no other code is run in a module of that name
(`World.Housed.moves`).
-/

namespace Amalgam

namespace World

/-- The names that may be set: not what a class is called, nor the module that it is of. -/
def Homely (name : String) : Prop := name ≠ "__name__" ∧ name ≠ "__module__"

instance (name : String) : Decidable (Homely name) := inferInstanceAs (Decidable (_ ∧ _))

end World

open World (Homely)

/-- No line of a class is for the name or the module of this class or another. -/
def Source.Class.KeepsHomes (c : Class) : Prop :=
  ∀ l ∈ c.lines, ∀ name ∈ (Text.splitOnChar '.' l.name).getLast?, Homely name

instance (c : Source.Class) : Decidable c.KeepsHomes := inferInstanceAs (Decidable (∀ l ∈ c.lines, _))

theorem Text.homely_privateName {owner name : String} : Homely (privateName owner name) ↔ Homely name := by
  unfold Homely
  rw [Ne, Ne, privateName_eq_special_iff (by decide +kernel) (by decide +kernel),
    privateName_eq_special_iff (by decide +kernel) (by decide +kernel)]

namespace Source.Class.KeepsHomes

variable {c : Class} (h : c.KeepsHomes)

include h

theorem setsIn {f : FieldLine} (hf : f ∈ c.fields) : f.SetsIn Homely := by
  intro owner name hname
  rw [← List.map_tail, List.getLast?_map] at hname
  obtain ⟨last, hlast, rfl⟩ := Option.map_eq_some_iff.1 hname
  have hlast : (Text.splitOnChar '.' f.name).getLast? = some last := by
    have hne : (Text.splitOnChar '.' f.name).tail ≠ [] := List.ne_nil_of_mem (List.mem_of_getLast? hlast)
    rw [List.getLast?_eq_some_getLast hne, List.getLast_tail hne] at hlast
    rw [← hlast, List.getLast?_eq_some_getLast]
  exact Text.homely_privateName.2 (h _ (List.mem_append_left _ (List.mem_map_of_mem hf)) last hlast)

theorem field_ne {f : FieldLine} (hf : f ∈ c.fields) : f.name ≠ "__module__" := by
  intro hname
  have hsplit : Text.splitOnChar '.' "__module__" = ["__module__"] := by decide +kernel
  have hhomely := h _ (List.mem_append_left _ (List.mem_map_of_mem hf)) "__module__" (by
    show (Text.splitOnChar '.' f.name).getLast? = _
    rw [hname, hsplit]
    rfl)
  exact hhomely.2 rfl

theorem method_ne {m : Method} (hm : m ∈ c.methods) : m.name ≠ "__module__" := by
  intro hname
  have hsplit : Text.splitOnChar '.' "__module__" = ["__module__"] := by decide +kernel
  have hhomely := h _ (List.mem_append_right _ (List.mem_map_of_mem hm)) "__module__" (by
    show (Text.splitOnChar '.' m.name).getLast? = _
    rw [hname, hsplit]
    rfl)
  exact hhomely.2 rfl

end Source.Class.KeepsHomes

namespace World

variable {w w' : World} {home id : Nat} {c : Source.Class} {l : Launch} {code : Source.Code} {name module file : String}

/-- The body of a class says nothing of its module, if no line does. -/
theorem homeOf_leaves (homes : c.KeepsHomes) {s : Scope} (h : Leaves home c w s w') (moduleName : String) :
    s.homeOf moduleName = moduleName := by
  have hnot : ∀ {owner name : String}, name ≠ "__module__" → Text.privateName owner name ≠ "__module__" := by
    intro owner name hname heq
    exact hname ((Text.privateName_eq_special_iff (by decide +kernel) (by decide +kernel)).1 heq)
  obtain ⟨between, u, hfields, hmethods⟩ := h
  have hfield : ∀ f ∈ c.fields, ∀ s w s' w', s.owner = c.name → (Scope.runField s f).runFrom w = (.ok s', w') →
      s'.owner = c.name ∧ s'.slots.get? "__module__" = s.slots.get? "__module__" := by
    intro f hf s w s' w' hs hstep
    obtain ⟨howner, ⟨-, hslots⟩ | ⟨-, slot, hslots⟩⟩ := runField_eq_ok hstep
    · exact ⟨howner.trans hs, by rw [hslots]⟩
    · exact ⟨howner.trans hs, by rw [hslots, Entries.get?_put_of_ne _ _ (hnot (homes.field_ne hf)).symm]⟩
  have hmethod : ∀ m ∈ c.methods, ∀ s w s' w', s.owner = c.name → (Scope.runMethod s m).runFrom w = (.ok s', w') →
      s'.owner = c.name ∧ s'.slots.get? "__module__" = s.slots.get? "__module__" := by
    intro m hm s w s' w' hs hstep
    obtain ⟨howner, slot, hslots⟩ := runMethod_eq_ok hstep
    exact ⟨howner.trans hs, by rw [hslots, Entries.get?_put_of_ne _ _ (hnot (homes.method_ne hm)).symm]⟩
  obtain ⟨howner, hget⟩ := get?_slots_foldlM hfield rfl hfields
  obtain ⟨-, hget'⟩ := get?_slots_foldlM hmethod howner hmethods
  have hnone : s.slots.get? "__module__" = none := by
    rw [hget', hget]
    rfl
  unfold Scope.homeOf
  rw [hnone]

/-- A class of some name that stands in the module of a file, and says so. -/
structure Housed (w : World) (name : String) (id : Nat) (module file : String) : Prop where
  known : id < w.classes.size
  called : (w.cls id).name = name
  lives : (w.cls id).home = module
  loaded : ∃ k m, w.loaded.get? module = some k ∧ w.modules[k]? = some m ∧ m.names.get? name = some (.cls id) ∧
    m.file = some file

/-- What may become of a world where code is run in modules of one name only. -/
structure Moves (module : String) (w w' : World) : Prop where
  evolves : Evolves Homely w w'
  modules : w.KeepsModules w'
  loaded : ∀ other ≠ module, w'.loaded.get? other = w.loaded.get? other

theorem Moves.refl (w : World) : Moves module w w := ⟨Evolves.refl w, KeepsModules.refl w, fun _ _ => rfl⟩

theorem Moves.trans {w'' : World} (h : Moves module w w') (h' : Moves module w' w'') : Moves module w w'' :=
  ⟨h.evolves.trans h'.evolves, h.modules.trans h'.modules, fun other hne => (h'.loaded other hne).trans (h.loaded other hne)⟩

theorem moves_execute (tame : Tame Homely w) (homes : code.cls.KeepsHomes) (l : Launch) :
    Moves l.module w ((execute l code).runFrom w).2 := by
  refine ⟨evolves_execute (fun f hf => homes.setsIn hf) tame l, keepsModules_execute l code w, ?_⟩
  intro other hne
  cases hrun : (execute l code).runFrom w with
  | mk r w' =>
    cases r with
    | ok id => rw [loaded_of_execute_ok hrun, Entries.get?_put_of_ne _ _ hne]
    | error e =>
      rw [loaded_of_execute_error hrun]
      split
      · exact Entries.get?_erase_of_ne _ hne
      · rfl

/-- A class stays in its module, whatever is run in modules of other names. -/
theorem Housed.moves {other : String} (h : Housed w name id module file) (moves : Moves other w w') (hne : module ≠ other) :
    Housed w' name id module file := by
  have hkeeps := moves.evolves.keeps id h.known
  obtain ⟨k, m, hk, hm, hname, hfile⟩ := h.loaded
  refine ⟨Nat.lt_of_lt_of_le h.known moves.evolves.classes, ?_, ?_, k, m, ?_, ?_, hname, hfile⟩
  · rw [hkeeps.name fun hS => hS.1 rfl, h.called]
  · rw [hkeeps.home fun hS => hS.2 rfl, h.lives]
  · rw [moves.loaded module hne, hk]
  · obtain ⟨hlt, -⟩ := Array.getElem?_eq_some_iff.1 hm
    rw [moves.modules k hlt, hm]

/-- Code of a class of the name that is asked for gives a class that stands in the module it is run in. -/
theorem housed_of_execute (tame : Tame Homely w) (homes : code.cls.KeepsHomes) (hasked : code.cls.name = l.name)
    (h : (execute l code).runFrom w = (.ok id, w')) : Housed w' l.name id l.module l.file := by
  have hloaded := loaded_of_execute_ok h
  obtain ⟨m, u, himports, hdefines, rfl⟩ := defined_of_execute tame h hasked
  have hname := hdefines.name fun hS => hS.1 rfl
  obtain ⟨names, rfl⟩ := runImports_eq_ok himports
  obtain ⟨bases, s, start, made, order, derives, body, number, known, linear, keeps, -⟩ := hdefines
  have hmade : (((made.modules[w.modules.size]?).map Module.name).getD "") = l.module := by
    have hderives := (Act.Faithful.mapM fun name _ => faithful_baseOf w.modules.size name).modules_eq
      (tame_everything (w.withModule { l.start with names })) derives
    rw [modules_leaves body, hderives]
    show ((((w.modules.push { l.start with names })[w.modules.size]?).map Module.name).getD "") = l.module
    rw [Array.getElem?_push_size]
    rfl
  have hhome : (u.cls id).home = l.module := by
    rw [keeps.home fun hS => hS.2 rfl]
    show s.homeOf _ = _
    rw [homeOf_leaves homes body, hmade]
  refine ⟨known, hname.trans hasked, hhome, w.modules.size, _, ?_, Array.getElem?_push_size, ?_, rfl⟩
  · rw [hloaded, Entries.get?_put_self]
  · rw [hasked, Entries.get?_put_self]

end World

end Amalgam
