import Amalgam.Proofs.Session.Course

/-!
# What a call that fails leaves behind

A call that fails leaves the registry, the bindings of the caller and all modules as they were. Two traces of it can be
seen (`Session.intact_iff_of_failed`). If it came to run code, the name of the module that it made is taken away, also from
a module that had this name before; and if it came to compile a blueprint, the lines of its code stay.
-/

namespace Amalgam

open World (KeepsModules execute)

/-- The code of a blueprint comes to be run in a world: it can be compiled and its symbols are found. -/
def Blueprint.runsIn (b : Blueprint) (w : World) : Bool :=
  match Source.compile false b, Session.seed w b with
  | .ok code, .ok _ => code.cls.isSound
  | _, _ => false

namespace Undertaking

/-- Some code comes to be run. -/
def runs (u : Undertaking) : Bool := u.loads.any (·.cls.isSound) || u.defines.any fun d => d.1.runsIn d.2

/-- The code that is compiled to be run without a file. -/
def compiles? (u : Undertaking) : Option String := u.defines.bind (·.1.print?)

end Undertaking

namespace Session

variable {settings : Settings} {b : Blueprint} {name module : String} {p p' : Session} {w w' : World} {e : Failure} {c : Call}
  {u : Undertaking}

/-- What code that fails leaves of a world, if it was run at all. -/
structure Unloads (w : World) (module : String) (ran : Bool) (w' : World) : Prop where
  modules : w.KeepsModules w'
  loaded : w'.loaded = if ran then w.loaded.erase module else w.loaded

theorem Unloads.refl (w : World) (module : String) : Unloads w module false w := ⟨KeepsModules.refl w, rfl⟩

theorem Unloads.trans {w'' : World} {ran ran' : Bool} (h : Unloads w module ran w') (h' : Unloads w' module ran' w'') :
    Unloads w module (ran || ran') w'' := by
  refine ⟨h.modules.trans h'.modules, ?_⟩
  rw [h'.loaded, h.loaded]
  cases ran <;> cases ran' <;> simp

theorem unloads_execute {l : World.Launch} {code : Source.Code} (h : (execute l code).runFrom w = (.error e, w')) :
    Unloads w l.module code.cls.isSound w' := by
  have hmodules := World.keepsModules_execute l code w
  rw [h] at hmodules
  exact ⟨hmodules, World.loaded_of_execute_error h⟩

theorem unloads_activation (h : activation settings b w = (.error e, w')) :
    Unloads w (settings.moduleName b.name) (b.runsIn w) w' := by
  unfold activation at h
  unfold Blueprint.runsIn
  cases hcode : Source.compile false b with
  | error _ =>
    rw [hcode] at h
    cases h
    exact Unloads.refl w _
  | ok code =>
    rw [hcode] at h
    dsimp only at h
    cases hseed : seed w b with
    | error _ =>
      rw [hseed] at h
      cases h
      exact Unloads.refl w _
    | ok names =>
      rw [hseed] at h
      exact unloads_execute h

theorem LeadsTo.unloads (h : LeadsTo settings name u w w') :
    Unloads w (settings.moduleName name) (u.loads.any (·.cls.isSound)) w' := by
  rcases h with ⟨hloads, rfl⟩ | ⟨l, code, e, hloads, hlaunch, hrun⟩
  · rw [hloads]
    exact Unloads.refl _ _
  · rw [hloads, ← hlaunch.module]
    exact unloads_execute hrun

theorem Course.unloads (h : Course settings name p u p' (.error e)) :
    Unloads p.world (settings.moduleName name) u.runs p'.world := by
  unfold Undertaking.runs
  cases h with
  | stopped defines leads retains lines =>
    rw [defines]
    exact leads.unloads.trans (Unloads.refl _ _)
  | defined defines named leads free run lines retains composites =>
    rw [defines]
    exact leads.unloads.trans (named ▸ unloads_activation run)

theorem Course.retains (h : Course settings name p u p' (.error e)) : Retains p p' := by
  cases h with
  | stopped defines leads retains lines => exact retains
  | defined defines named leads free run lines retains composites => exact retains e rfl

theorem Course.lines (h : Course settings name p u p' (.error e)) :
    p'.lines = (u.compiles?.map (p.lines.put (fileName (settings.moduleName name)))).getD p.lines := by
  unfold Undertaking.compiles?
  cases h with
  | stopped defines leads retains lines => rw [lines, defines, Option.bind_none, Option.map_none, Option.getD_none]
  | defined defines named leads free run lines retains composites => rw [lines, defines, Option.bind_some]

/--
Every call that fails leaves the registry, the bindings of the caller and the modules themselves as they were. The table of
modules is as before unless the call came to run code and a module had the name of the new one, and the lines are as before
unless the call compiled code that was not there.
-/
theorem intact_iff_of_failed (hmodule : c.module? = some module) (failed : (c.run p).1 = .error e) :
    (p.next c).composites = p.composites ∧ (p.next c).bound = p.bound ∧
      (∀ i < p.world.modules.size, (p.next c).world.modules[i]? = p.world.modules[i]?) ∧
      ((p.next c).world.loaded = p.world.loaded ↔
        ¬((c.undertakes p).runs = true ∧ p.world.loaded.has module = true)) ∧
      ((p.next c).lines = p.lines ↔
        ∀ text, (c.undertakes p).compiles? = some text → p.lines.get? (fileName module) = some text) ∧
      (∀ other ≠ module, (p.next c).world.loaded.get? other = p.world.loaded.get? other) ∧
      ∀ file ≠ fileName module, (p.next c).lines.get? file = p.lines.get? file := by
  obtain ⟨settings, name, -, rfl, hcourse⟩ := course_of_failed hmodule failed
  obtain ⟨hcomposites, hbound⟩ := hcourse.retains
  obtain ⟨hmodules, hloaded⟩ := hcourse.unloads
  have hlines := hcourse.lines
  refine ⟨hcomposites, hbound, hmodules, ?_, ?_, ?_, ?_⟩
  · rw [hloaded]
    cases (c.undertakes p).runs with
    | false => simp
    | true => simp [Entries.erase_eq_self_iff]
  · rw [hlines]
    cases (c.undertakes p).compiles? with
    | none => simp
    | some text => simp [Entries.put_eq_self_iff]
  · intro other hother
    rw [hloaded]
    split
    · exact Entries.get?_erase_of_ne _ hother
    · rfl
  · intro file hfile
    rw [hlines]
    cases (c.undertakes p).compiles? with
    | none => rfl
    | some text => exact Entries.get?_put_of_ne _ _ hfile

/-- A shop in a module of the name that a sale would have; no class can be derived from its carts. -/
def closedShop : Session :=
  let p := shopIn "class_mixer_generated.Sale"
  let hook : Function :=
    { name := "__init_subclass__", qualname := "Cart.__init_subclass__", home := "class_mixer_generated.Sale"
      params := [{ name := "cls" }], body := .script "Cart.__init_subclass__" none true [] (.raise "closed") }
  let hooked (c : Class) : Class :=
    { c with slots := c.slots.put hook.name (.routine .ofClass p.world.functions.size) }
  { p with world :=
      { p.world with classes := p.world.classes.modify 7 hooked, functions := p.world.functions.push hook } }

def closedDeal : Call := .mix .live {} false
  { name := "Sale", base := .live 7 ⟨"class_mixer_generated.Sale", "Cart"⟩, mixins := [] }

theorem traces_of_closedDeal : (closedDeal.run closedShop).1 = .error (.raised "closed") ∧
    (closedShop.next closedDeal).world.loaded ≠ closedShop.world.loaded ∧
    (closedShop.next closedDeal).lines ≠ closedShop.lines := by
  have failed : (closedDeal.run closedShop).1 = .error (.raised "closed") :=
    Outcome.eq_error_of_failure? (by decide +kernel)
  have hmodule : closedDeal.module? = some "class_mixer_generated.Sale" := by decide +kernel
  obtain ⟨-, -, -, hloaded, hlines, -, -⟩ := intact_iff_of_failed hmodule failed
  refine ⟨failed, fun h => hloaded.1 h ?_, fun h => ?_⟩
  · decide +kernel
  · have hcompiles : ((closedDeal.undertakes closedShop).compiles?).isSome = true := by decide +kernel
    obtain ⟨text, htext⟩ := Option.isSome_iff_exists.1 hcompiles
    have hnone : closedShop.lines.get? (fileName "class_mixer_generated.Sale") = none := by decide +kernel
    rw [hlines.1 h text htext] at hnone
    cases hnone

end Session

end Amalgam
