import Amalgam.Proofs.Outcome
import Amalgam.Proofs.World.Running
import Amalgam.World.Execution

/-!
# Running generated code in a module

The definition of a class is faithful like all code that runs (`World.faithful_defineClass`), so it comes to the same
whatever file its module is of, and whether its names were imported or bound beforehand (`World.execute_alike`).
-/

namespace Amalgam

/-- What the line of a field sets on another object than its class is among the given names. -/
def Source.FieldLine.SetsIn (S : String → Prop) (f : Source.FieldLine) : Prop :=
  ∀ owner name, ((Text.splitOnChar '.' f.name).map (Text.privateName owner)).tail.getLast? = some name → S name

namespace World

open Act (Faithful faithful_pure faithful_throw faithful_fail faithful_fail_bind faithful_modify)

/-- No name is kept from being set. -/
def Everything (_ : String) : Prop := True

theorem tame_everything (w : World) : Tame Everything w := ⟨trivial, trivial, fun _ _ _ _ => trivial⟩

/-! ## The body of a class -/

section Body

variable {S : String → Prop} (s : Scope)

theorem faithful_globalIn (home : Nat) (name : String) : Faithful S (globalIn home name) := by
  refine Faithful.read (fun w ms loaded same => by simp only [global?_reloaded same]) fun w _ => ?_
  split
  · exact faithful_pure _
  · exact faithful_fail _

theorem faithful_attrs (v : Value) (path : List String) : Faithful S (path.foldlM behaviour.attr v) :=
  Faithful.foldlM (fun v name _ => faithful_behaviour.attr v name) v

theorem faithful_optionMapM {α β : Type} {f : α → Act World β} (h : ∀ a, Faithful S (f a)) (a : Option α) :
    Faithful S (a.mapM f) := by
  cases a with
  | none => exact faithful_pure _
  | some a => exact (h a).bind fun b => faithful_pure _

theorem faithful_initValue (path : List String) (i : Source.Init) : Faithful S (s.initValue path i) := by
  cases i with
  | literal text => exact faithful_pure _
  | copied owner => exact (faithful_globalIn _ _).bind fun v => faithful_attrs v path

theorem faithful_runField {f : Source.FieldLine} (sets : f.SetsIn S) : Faithful S (s.runField f) := by
  have hlast := sets s.owner
  unfold Scope.runField
  generalize (Text.splitOnChar '.' f.name).map (Text.privateName s.owner) = path at hlast
  refine (faithful_optionMapM (fun i => faithful_initValue s _ i) f.value).bind fun value => ?_
  split
  · cases value with
    | some v =>
      exact Faithful.read (fun _ _ _ _ => rfl) fun w _ => faithful_pure _
    | none => exact faithful_pure _
  · rename_i head rest hsingle
    have hset : ∀ (owner : Value) {name : String} (v : Value), rest.getLast? = some name →
        Faithful S (behaviour.setAttr owner name v >>= fun _ => pure s) := by
      intro owner name v hname
      have hS : S name := hlast name hname
      exact (Behaviour.faithful_setAttr faithful_behaviour owner hS v).bind fun _ => faithful_pure s
    dsimp only
    split
    · refine (faithful_pure _).bind fun target => ?_
      split
      · rename_i hname
        exact (faithful_attrs target _).bind fun owner => hset owner _ hname
      · exact faithful_pure s
    · refine (faithful_globalIn _ _).bind fun target => ?_
      split
      · rename_i hname
        exact (faithful_attrs target _).bind fun owner => hset owner _ hname
      · exact faithful_pure s
  · exact faithful_pure _

theorem faithful_defaultValue (d : Source.Default) : Faithful S (s.defaultValue d) := by
  cases d with
  | literal text =>
    unfold Scope.defaultValue
    dsimp only
    split <;> exact faithful_pure _
  | readBack reader function param =>
    refine (faithful_globalIn _ _).bind fun r => (faithful_globalIn _ _).bind fun f => ?_
    exact (faithful_attrs f _).bind fun f => faithful_behaviour.call _ _ _

theorem faithful_parameter (f : Source.Formal) : Faithful S (s.parameter f) :=
  (faithful_optionMapM (faithful_defaultValue s) f.default).bind fun _ => faithful_pure _

theorem faithful_decorate (kind : MemberKind) (f : Nat) : Faithful S (s.decorate kind f) := by
  unfold Scope.decorate
  dsimp only
  split
  · exact faithful_pure _
  · exact faithful_fail _
  · exact faithful_fail _
  · refine (faithful_behaviour.call _ _ _).bind fun v => ?_
    exact Faithful.read (fun _ _ _ _ => rfl) fun w _ => faithful_pure _

theorem faithful_runMethod (m : Source.Method) : Faithful S (s.runMethod m) := by
  refine (Faithful.mapM fun f _ => faithful_parameter s f).bind fun params => ?_
  refine Faithful.read (fun w ms loaded same => by simp only [name_reloaded same]) fun w _ => ?_
  refine (Act.faithful_addFunction rfl).bind fun f => (faithful_decorate s _ f).bind fun slot => faithful_pure _

theorem faithful_baseOf (home : Nat) (name : String) : Faithful S (baseOf home name) := by
  refine (faithful_globalIn home name).bind fun v => ?_
  split
  · exact faithful_pure _
  · exact faithful_fail _

/-- What the definition of a class may set is what the lines of its fields set. -/
theorem faithful_definition (home : Nat) {c : Source.Class} (sets : ∀ f ∈ c.fields, f.SetsIn S) :
    Faithful S (defineClass home c) := by
  refine (Faithful.mapM fun name _ => faithful_baseOf home name).bind fun bases => ?_
  refine (Faithful.foldlM (fun s f hf => faithful_runField s (sets f hf)) _).bind fun s => ?_
  refine (Faithful.foldlM (fun s m _ => faithful_runMethod s m) _).bind fun s => ?_
  exact Faithful.read (fun w ms loaded same => by simp only [name_reloaded same]) fun w _ => faithful_create _

end Body

theorem setsIn_everything (f : Source.FieldLine) : f.SetsIn Everything := fun _ _ _ => trivial

theorem faithful_defineClass (home : Nat) (c : Source.Class) : Faithful Everything (defineClass home c) :=
  faithful_definition home fun f _ => setsIn_everything f

/-! ## A class in its module -/

theorem modify_push {α : Type} (as : Array α) (a : α) (f : α → α) : (as.push a).modify as.size f = as.push (f a) := by
  refine Array.ext (by simp) fun i h _ => ?_
  rw [Array.getElem_modify, Array.getElem_push, Array.getElem_push]
  have : i < as.size ∨ i = as.size := by
    rw [Array.size_modify, Array.size_push] at h
    omega
  grind

/-- A class is defined with its module in place, and bound there. -/
theorem runFrom_runIn (m : Module) (name : String) (c : Source.Class) (w : World) :
    (runIn m name c).runFrom w = match (defineClass w.modules.size c).runFrom (w.withModule m) with
      | (.error e, u) => (.error e, u)
      | (.ok id, u) => (found c name (m.names.put c.name (.cls id)),
          { u with modules := w.modules.push { m with names := m.names.put c.name (.cls id) } }) := by
  have hframe := ((faithful_defineClass w.modules.size c).frame (tame_everything (w.withModule m))).1
  unfold runIn load
  simp only [bind_assoc, pure_bind, Act.runFrom_bind, Act.runFrom_get, Act.runFrom_set]
  unfold runClass bindName updateModule
  simp only [Act.runFrom_bind, Act.runFrom_modify]
  generalize (defineClass w.modules.size c).runFrom (w.withModule m) = r at hframe
  obtain ⟨r, u⟩ := r
  cases r with
  | error e => rfl
  | ok id =>
    have hmodules : u.modules = w.modules.push m := hframe
    have hbound : u.modules.modify w.modules.size (fun m => { m with names := m.names.put c.name (.cls id) }) =
        w.modules.push { m with names := m.names.put c.name (.cls id) } := by
      rw [hmodules, modify_push]
    simp only [hbound, Array.getElem?_push_size, Option.map_some, Option.getD_some]
    rfl

/-- Imports give a module names, and leave it as it is otherwise. -/
theorem runImports_eq_ok {w : World} {m m' : Module} {imports : List Source.Import}
    (h : w.runImports m imports = .ok m') : ∃ names, m' = { m with names } := by
  induction imports generalizing m with
  | nil =>
    cases h
    exact ⟨_, rfl⟩
  | cons i rest ih =>
    obtain ⟨v, -, h⟩ := Outcome.bind_eq_ok.1 h
    obtain ⟨names, rfl⟩ := ih h
    exact ⟨names, rfl⟩

/-- Code fails before anything happens, or in its imports, or while its class is defined; if not, that class is found. -/
theorem runFrom_execute (l : Launch) (c : Source.Code) (w : World) :
    (execute l c).runFrom w = if c.cls.isSound then
        match w.runImports l.start c.imports with
        | .error e => (.error e, w.withoutModule l.module)
        | .ok m =>
          match (runIn m l.name c.cls).runFrom w with
          | (.ok id, u) => (.ok id, u)
          | (.error e, u) => (.error e, u.withoutModule l.module)
      else (.error (.fault .syntaxError), w) := by
  unfold execute
  by_cases hsound : c.cls.isSound = true
  · simp only [hsound, Bool.not_true, Bool.false_eq_true, if_false, if_true]
    rw [Act.runFrom_tryCatch, Act.runFrom_bind, Act.runFrom_get]
    dsimp only
    rw [Act.runFrom_bind, Act.runFrom_ofExcept]
    cases w.runImports l.start c.imports with
    | error e => rfl
    | ok m =>
      dsimp only
      generalize (runIn m l.name c.cls).runFrom w = r
      obtain ⟨r, u⟩ := r
      cases r <;> rfl
  · simp only [hsound, Bool.not_false, if_true]
    rfl

/-- Imports leave alone every name that they do not bind. -/
theorem get?_names_of_runImports {w : World} {m m' : Module} {imports : List Source.Import}
    (h : w.runImports m imports = .ok m') {name : String} (hname : ∀ i ∈ imports, i.boundAs ≠ name) :
    m'.names.get? name = m.names.get? name := by
  induction imports generalizing m with
  | nil =>
    cases h
    rfl
  | cons i rest ih =>
    obtain ⟨v, -, h⟩ := Outcome.bind_eq_ok.1 h
    rw [ih h fun j hj => hname j (List.mem_cons_of_mem _ hj),
      Entries.get?_put_of_ne _ _ (Ne.symm (hname i List.mem_cons_self))]

theorem execute_eq_ok {l : Launch} {c : Source.Code} {w w' : World} {id : Nat} (h : (execute l c).runFrom w = (.ok id, w')) :
    ∃ m new u, w.runImports l.start c.imports = .ok m ∧
      (defineClass w.modules.size c.cls).runFrom (w.withModule m) = (.ok new, u) ∧
      found c.cls l.name (m.names.put c.cls.name (.cls new)) = .ok id ∧
      w' = { u with modules := w.modules.push { m with names := m.names.put c.cls.name (.cls new) } } := by
  rw [runFrom_execute] at h
  split at h
  · split at h
    · cases h
    · rename_i m himports
      rw [runFrom_runIn] at h
      generalize hdefined : (defineClass w.modules.size c.cls).runFrom (w.withModule m) = r at h
      obtain ⟨r, u⟩ := r
      cases r with
      | error e => cases h
      | ok new =>
        dsimp only at h
        generalize hfound : found c.cls l.name (m.names.put c.cls.name (.cls new)) = r at h
        cases r with
        | error e => cases h
        | ok found =>
          cases h
          exact ⟨m, new, u, himports, hdefined, hfound, rfl⟩
  · cases h

/-- Code that gives a class can be compiled. -/
theorem isSound_of_execute {l : Launch} {c : Source.Code} {w w' : World} {id : Nat}
    (h : (execute l c).runFrom w = (.ok id, w')) : c.cls.isSound = true := by
  rw [runFrom_execute] at h
  split at h
  · assumption
  · cases h

/-- Code that does not know the name that is asked for does not give a class. -/
theorem knows_of_execute {l : Launch} {c : Source.Code} {w w' : World} {id : Nat}
    (h : (execute l c).runFrom w = (.ok id, w')) (hseed : l.seed = []) :
    c.cls.name = l.name ∨ ∃ i ∈ c.imports, i.boundAs = l.name := by
  by_contra hunknown
  obtain ⟨hcls, himports⟩ := not_or.1 hunknown
  obtain ⟨m, new, u, hrun, -, hfound, -⟩ := execute_eq_ok h
  have hname := get?_names_of_runImports hrun fun i hi heq => himports ⟨i, hi, heq⟩
  rw [found, Entries.get?_put_of_ne _ _ (Ne.symm hcls), hname, Launch.start, hseed] at hfound
  cases hfound

/-- Code that can be compiled and gets past its imports, or that takes the name of another module. -/
def Disturbs (l : Launch) (c : Source.Code) (w : World) : Prop :=
  c.cls.isSound = true ∧ ((∃ m, w.runImports l.start c.imports = .ok m) ∨ w.loaded.has l.module = true)

/-- Other code that fails leaves the world as it was. -/
theorem world_of_not_disturbs {l : Launch} {c : Source.Code} {w w' : World} {e : Failure}
    (h : (execute l c).runFrom w = (.error e, w')) (quiet : ¬Disturbs l c w) : w' = w := by
  rw [runFrom_execute] at h
  split at h
  · rename_i hsound
    cases himports : w.runImports l.start c.imports with
    | ok m => exact absurd ⟨hsound, Or.inl ⟨m, himports⟩⟩ quiet
    | error e' =>
      rw [himports] at h
      cases h
      have hfree : w.loaded.has l.module = false := by
        rw [← Bool.not_eq_true]
        exact fun htaken => quiet ⟨hsound, Or.inr htaken⟩
      rw [World.withoutModule, Entries.erase_of_has_eq_false hfree]
  · cases h
    rfl

/-! ## What code that fails leaves of the modules -/

/-- The modules that were there are there, as they were. -/
def KeepsModules (w w' : World) : Prop := ∀ i < w.modules.size, w'.modules[i]? = w.modules[i]?

theorem KeepsModules.refl (w : World) : w.KeepsModules w := fun _ _ => rfl

theorem KeepsModules.trans {w w' w'' : World} (h : w.KeepsModules w') (h' : w'.KeepsModules w'') : w.KeepsModules w'' := by
  intro i hi
  have hlt : i < w'.modules.size := by
    have hget := h i hi
    grind
  rw [h' i hlt, h i hi]

theorem KeepsModules.push {w w' : World} {m : Module} (h : w'.modules = w.modules.push m) : w.KeepsModules w' := by
  intro i hi
  rw [h, Array.getElem?_push, if_neg (Nat.ne_of_lt hi)]

theorem keepsModules_runIn (m : Module) (name : String) (c : Source.Class) (w : World) :
    w.KeepsModules ((runIn m name c).runFrom w).2 := by
  have hframe := ((faithful_defineClass w.modules.size c).frame (tame_everything (w.withModule m))).1
  rw [runFrom_runIn]
  generalize (defineClass w.modules.size c).runFrom (w.withModule m) = r at hframe
  obtain ⟨r, u⟩ := r
  cases r with
  | error e => exact KeepsModules.push hframe
  | ok id => exact KeepsModules.push rfl

/-- A module that is new is loaded in the place of one of its name, and nothing else is. -/
theorem loaded_runIn (m : Module) (name : String) (c : Source.Class) (w : World) :
    ((runIn m name c).runFrom w).2.loaded = w.loaded.put m.name w.modules.size := by
  have hframe := ((faithful_defineClass w.modules.size c).frame (tame_everything (w.withModule m))).2.1
  rw [runFrom_runIn]
  generalize (defineClass w.modules.size c).runFrom (w.withModule m) = r at hframe
  obtain ⟨r, u⟩ := r
  cases r <;> exact hframe

theorem keepsModules_execute (l : Launch) (c : Source.Code) (w : World) :
    w.KeepsModules ((execute l c).runFrom w).2 := by
  rw [runFrom_execute]
  split
  · cases w.runImports l.start c.imports with
    | error e => exact KeepsModules.refl w
    | ok m =>
      have hrun := keepsModules_runIn m l.name c.cls w
      dsimp only
      generalize (runIn m l.name c.cls).runFrom w = r at hrun
      obtain ⟨r, u⟩ := r
      cases r <;> exact hrun
  · exact KeepsModules.refl w

/-- Code that is run and fails takes away the name of its module, also from a module that had it before. -/
theorem loaded_of_execute_error {l : Launch} {c : Source.Code} {w w' : World} {e : Failure}
    (h : (execute l c).runFrom w = (.error e, w')) :
    w'.loaded = if c.cls.isSound then w.loaded.erase l.module else w.loaded := by
  rw [runFrom_execute] at h
  split at h
  · rename_i hsound
    rw [if_pos hsound]
    cases himports : w.runImports l.start c.imports with
    | error e' =>
      rw [himports] at h
      cases h
      rfl
    | ok m =>
      obtain ⟨names, rfl⟩ := runImports_eq_ok himports
      have hloaded := loaded_runIn { l.start with names } l.name c.cls w
      rw [himports] at h
      dsimp only at h
      generalize (runIn { l.start with names } l.name c.cls).runFrom w = r at h hloaded
      obtain ⟨r, u⟩ := r
      cases r with
      | ok id => cases h
      | error e' =>
        cases h
        have hloaded : u.loaded = w.loaded.put l.module w.modules.size := hloaded
        rw [withoutModule, hloaded, Entries.erase_put]
  · rename_i hsound
    cases h
    rw [if_neg hsound]

/-- Code that gives a class leaves its module loaded. -/
theorem loaded_of_execute_ok {l : Launch} {c : Source.Code} {w w' : World} {id : Nat}
    (h : (execute l c).runFrom w = (.ok id, w')) : w'.loaded = w.loaded.put l.module w.modules.size := by
  obtain ⟨m, new, u, himports, hdefined, -, rfl⟩ := execute_eq_ok h
  obtain ⟨names, rfl⟩ := runImports_eq_ok himports
  have hframe := (faithful_defineClass w.modules.size c.cls).frame (tame_everything (w.withModule { l.start with names }))
  rw [hdefined] at hframe
  exact hframe.2.1

/-! ## Alike worlds -/

theorem SameModules.push {ms ms' : Array Module} (h : SameModules ms ms') {m m' : Module} (same : m.fileless = m'.fileless) :
    SameModules (ms.push m) (ms'.push m') := by
  intro i
  rw [Array.getElem?_push, Array.getElem?_push, h.size_eq]
  split
  · exact congrArg some same
  · exact h i

theorem Alike.withModules {w w' : World} (alike : w.Alike w') {ms ms' : Array Module} (same : SameModules ms' ms) :
    Alike { w with modules := ms } { w' with modules := ms' } := by
  obtain ⟨_, loaded, -, rfl⟩ := alike
  exact ⟨ms', loaded, same, rfl⟩

theorem Alike.withModule {w w' : World} (alike : w.Alike w') {m m' : Module} (same : m'.fileless = m.fileless) :
    (w.withModule m).Alike (w'.withModule m') := by
  have hname : m'.name = m.name := (Module.mk.inj same).1
  obtain ⟨ms, loaded, hms, rfl⟩ := alike
  exact ⟨ms.push m', loaded.put m.name w.modules.size, hms.push same,
    by simp only [World.withModule, reloaded, hname, hms.size_eq]⟩

/-- The definition of a class comes to the same in worlds that are alike, whatever file its module is of. -/
theorem runIn_alike {w w' : World} (alike : w.Alike w') {m m' : Module} (same : m'.fileless = m.fileless) (name : String)
    (c : Source.Class) :
    ((runIn m' name c).runFrom w').1 = ((runIn m name c).runFrom w).1 ∧
      ((runIn m name c).runFrom w).2.Alike ((runIn m' name c).runFrom w').2 := by
  obtain ⟨hname, -, hpackage, hnames⟩ := Module.mk.inj same
  obtain ⟨ms, loaded, hms, hw'⟩ := id alike
  have hmodules : w'.modules = ms := by rw [hw', reloaded]
  obtain ⟨houtcome, hworld⟩ :=
    (faithful_defineClass w.modules.size c).alike (tame_everything _) (alike.withModule same)
  rw [runFrom_runIn, runFrom_runIn, hmodules, hms.size_eq, hnames]
  generalize (defineClass w.modules.size c).runFrom (w.withModule m) = r at houtcome hworld
  generalize (defineClass w.modules.size c).runFrom (w'.withModule m') = r' at houtcome hworld
  obtain ⟨r, u⟩ := r
  obtain ⟨r', u'⟩ := r'
  cases houtcome
  cases r with
  | error e => exact ⟨rfl, hworld⟩
  | ok id => exact ⟨rfl, hworld.withModules (hms.push (by rw [Module.fileless, Module.fileless, hname, hpackage]))⟩

theorem Alike.withoutModule {w w' : World} (alike : w.Alike w') (name : String) :
    (w.withoutModule name).Alike (w'.withoutModule name) := by
  obtain ⟨ms, loaded, same, rfl⟩ := alike
  exact ⟨ms, loaded.erase name, same, rfl⟩

/-- Code of the same class comes to the same once its names are bound, be it by its imports or beforehand. -/
theorem execute_alike {w w' : World} (alike : w.Alike w') {l l' : Launch} {c c' : Source.Code} {m m' : Module}
    (h : w.runImports l.start c.imports = .ok m) (h' : w'.runImports l'.start c'.imports = .ok m')
    (hmodule : l'.module = l.module) (hname : l'.name = l.name) (hcls : c'.cls = c.cls) (hnames : m'.names = m.names) :
    ((execute l' c').runFrom w').1 = ((execute l c).runFrom w).1 ∧
      ((execute l c).runFrom w).2.Alike ((execute l' c').runFrom w').2 := by
  obtain ⟨names, rfl⟩ := runImports_eq_ok h
  obtain ⟨_, rfl⟩ := runImports_eq_ok h'
  cases hnames
  have hsame : Module.fileless { l'.start with names } = Module.fileless { l.start with names } := by
    simp only [Module.fileless, Launch.start, hmodule]
  obtain ⟨houtcome, hworld⟩ := runIn_alike alike hsame l.name c.cls
  rw [runFrom_execute, runFrom_execute, h, h', hcls, hname, hmodule]
  split
  · dsimp only
    generalize (runIn { l.start with names } l.name c.cls).runFrom w = r at houtcome hworld
    generalize (runIn { l'.start with names } l.name c.cls).runFrom w' = r' at houtcome hworld
    obtain ⟨r, u⟩ := r
    obtain ⟨r', u'⟩ := r'
    cases houtcome
    cases r with
    | ok id => exact ⟨rfl, hworld⟩
    | error e => exact ⟨rfl, hworld.withoutModule _⟩
  · exact ⟨rfl, alike⟩

/-- A use of the objects of a world: an attribute is read or set, something is called or waited for. -/
inductive Use where
  | read (owner : Value) (name : String)
  | set (owner : Value) (name : String) (v : Value)
  | call (f : Value) (args : List Value) (keywords : Entries Value)
  | await (v : Value)

def Use.run : Use → Act World Value
  | read owner name => behaviour.attr owner name
  | set owner name v => behaviour.setAttr owner name v >>= fun _ => pure .none
  | call f args keywords => behaviour.call f args keywords
  | await v => behaviour.await v

/-- What comes of uses one after another, whether they fail or not. -/
def uses : List Use → World → List (Except Failure Value) × World
  | [], w => ([], w)
  | u :: rest, w =>
    let (r, w) := u.run.runFrom w
    let (rs, w) := uses rest w
    (r :: rs, w)

theorem faithful_use (u : Use) : Faithful Everything u.run := by
  cases u with
  | read owner name => exact faithful_behaviour.attr owner name
  | set owner name v => exact (Behaviour.faithful_setAttr faithful_behaviour owner trivial v).bind fun _ => faithful_pure _
  | call f args keywords => exact faithful_behaviour.call f args keywords
  | await v => exact faithful_behaviour.await v

/-- In worlds that are alike, uses come to the same. -/
theorem uses_alike {w w' : World} (alike : w.Alike w') (us : List Use) :
    (uses us w').1 = (uses us w).1 ∧ (uses us w).2.Alike (uses us w').2 := by
  induction us generalizing w w' with
  | nil => exact ⟨rfl, alike⟩
  | cons u us ih =>
    obtain ⟨houtcome, hworld⟩ := (faithful_use u).alike (tame_everything w) alike
    obtain ⟨hrest, hafter⟩ := ih hworld
    refine ⟨?_, hafter⟩
    show (u.run.runFrom w').1 :: (uses us (u.run.runFrom w').2).1 = (u.run.runFrom w).1 :: (uses us (u.run.runFrom w).2).1
    rw [houtcome, hrest]

/-! ## What code leaves behind -/

/-- What may have become of a world in which code was run, whatever came of it. -/
structure Outlives (w w' : World) : Prop where
  functions : ∀ f ∈ w'.functions, f ∈ w.functions ∨ f.sets = []
  classes : w.classes.size ≤ w'.classes.size
  /-- Only modules of files are new. -/
  modules : ∀ m ∈ w'.modules, m.file = none → m ∈ w.modules

theorem Outlives.refl (w : World) : w.Outlives w := ⟨fun _ hf => Or.inl hf, Nat.le_refl _, fun _ hm _ => hm⟩

theorem Outlives.trans {w w' w'' : World} (h : w.Outlives w') (h' : w'.Outlives w'') : w.Outlives w'' where
  functions f hf := (h'.functions f hf).elim (h.functions f) Or.inr
  classes := Nat.le_trans h.classes h'.classes
  modules m hm hfile := h.modules m (h'.modules m hm hfile) hfile

theorem Outlives.tame {S : String → Prop} {w w' : World} (h : w.Outlives w') (tame : Tame S w) : Tame S w' where
  init := tame.init
  hook := tame.hook
  sets f hf name hname := by
    rcases h.functions f hf with hf | hnone
    · exact tame.sets f hf name hname
    · rw [hnone] at hname
      cases hname

theorem outlives_runIn {m : Module} {file : String} (hfile : m.file = some file) (name : String) (c : Source.Class)
    (w : World) : w.Outlives ((runIn m name c).runFrom w).2 := by
  have hnew : ∀ {m' : Module}, m'.file = some file → ∀ m ∈ w.modules.push m', m.file = none → m ∈ w.modules := by
    intro m' hfile' m hm hnone
    rcases Array.mem_push.1 hm with hm | rfl
    · exact hm
    · rw [hfile'] at hnone
      cases hnone
  obtain ⟨-, hev⟩ := faithful_defineClass w.modules.size c (w.withModule m) _ [] (tame_everything _) fun _ => rfl
  have hfunctions := fun f => hev.mem_functions (f := f)
  have hframe := ((faithful_defineClass w.modules.size c).frame (tame_everything (w.withModule m))).1
  rw [runFrom_runIn]
  generalize (defineClass w.modules.size c).runFrom (w.withModule m) = r at hev hfunctions hframe
  obtain ⟨r, u⟩ := r
  cases r with
  | error e =>
    have hframe : u.modules = w.modules.push m := hframe
    exact ⟨hfunctions, hev.classes, fun m hm hnone => hnew hfile m (hframe ▸ hm) hnone⟩
  | ok id => exact ⟨hfunctions, hev.classes, hnew hfile⟩

theorem outlives_execute (l : Launch) (c : Source.Code) (w : World) : w.Outlives ((execute l c).runFrom w).2 := by
  rw [runFrom_execute]
  split
  · cases h : w.runImports l.start c.imports with
    | error e => exact ⟨(Outlives.refl w).functions, (Outlives.refl w).classes, (Outlives.refl w).modules⟩
    | ok m =>
      obtain ⟨names, rfl⟩ := runImports_eq_ok h
      have hrun := outlives_runIn (m := { l.start with names }) rfl l.name c.cls w
      dsimp only
      generalize (runIn { l.start with names } l.name c.cls).runFrom w = r at hrun
      obtain ⟨r, u⟩ := r
      cases r <;> exact ⟨hrun.functions, hrun.classes, hrun.modules⟩
  · exact Outlives.refl w

/-- Code leaves an evolution of a tame world, whatever comes of it, if the lines of its fields set what may be set. -/
theorem evolves_execute {S : String → Prop} {c : Source.Code} (sets : ∀ f ∈ c.cls.fields, f.SetsIn S) {w : World}
    (tame : Tame S w) (l : Launch) : Evolves S w ((execute l c).runFrom w).2 := by
  have hdefine : ∀ m, Evolves S w ((defineClass w.modules.size c.cls).runFrom (w.withModule m)).2 := by
    intro m
    have tame' : Tame S (w.withModule m) := ⟨tame.init, tame.hook, tame.sets⟩
    have hwith : Evolves S w (w.withModule m) := Evolves.of_eq rfl rfl rfl
    exact hwith.trans (faithful_definition w.modules.size sets _ _ [] tame' fun _ => rfl).2
  rw [runFrom_execute]
  split
  · cases w.runImports l.start c.imports with
    | error e => exact Evolves.of_eq rfl rfl rfl
    | ok m =>
      have hdefine := hdefine m
      dsimp only
      rw [runFrom_runIn]
      generalize (defineClass w.modules.size c.cls).runFrom (w.withModule m) = r at hdefine
      obtain ⟨r, u⟩ := r
      cases r with
      | error e => exact hdefine.trans (Evolves.of_eq rfl rfl rfl)
      | ok id =>
        dsimp only
        generalize found c.cls l.name (m.names.put c.cls.name (.cls id)) = r
        cases r <;> exact hdefine.trans (Evolves.of_eq rfl rfl rfl)
  · exact Evolves.refl w

end World

end Amalgam
