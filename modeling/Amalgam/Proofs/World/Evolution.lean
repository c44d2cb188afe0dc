import Amalgam.Proofs.Agreement
import Amalgam.World.Behaviour

/-!
# What running code leaves alone

Code that runs reads of the modules only the names that they hold, and changes none of them. `Faithful` says both at once:
in a world with other modules of the same names the code does the same, and what it makes of a world is an evolution of
it (`Evolves`). Classes and functions only get more, and of the names that no function sets, each class keeps what it has.
This file has the laws of sequences; the code that runs is gone through in `Amalgam.Proofs.World.Running`.
-/

namespace Amalgam

/-- A class as it was, up to the names that may be set. -/
structure Class.Keeps (S : String → Prop) (c c' : Class) : Prop where
  name : ¬S "__name__" → c'.name = c.name
  qualname : ¬S "__qualname__" → c'.qualname = c.qualname
  home : ¬S "__module__" → c'.home = c.home
  order : c'.order = c.order
  hints : c'.hints = c.hints
  slots : ∀ name, ¬S name → c'.slots.get? name = c.slots.get? name

theorem Class.Keeps.refl {S : String → Prop} (c : Class) : c.Keeps S c :=
  ⟨fun _ => rfl, fun _ => rfl, fun _ => rfl, rfl, rfl, fun _ _ => rfl⟩

theorem Class.Keeps.trans {S : String → Prop} {c c' c'' : Class} (h : c.Keeps S c') (h' : c'.Keeps S c'') : c.Keeps S c'' where
  name hS := (h'.name hS).trans (h.name hS)
  qualname hS := (h'.qualname hS).trans (h.qualname hS)
  home hS := (h'.home hS).trans (h.home hS)
  order := h'.order.trans h.order
  hints := h'.hints.trans h.hints
  slots name hS := (h'.slots name hS).trans (h.slots name hS)

theorem Class.Keeps.mono {S T : String → Prop} {c c' : Class} (h : c.Keeps S c') (hST : ∀ name, S name → T name) :
    c.Keeps T c' where
  name hT := h.name (mt (hST _) hT)
  qualname hT := h.qualname (mt (hST _) hT)
  home hT := h.home (mt (hST _) hT)
  order := h.order
  hints := h.hints
  slots name hT := h.slots name (mt (hST _) hT)

/-- A module without its file. -/
def Module.fileless (m : Module) : Module := { m with file := none }

/-- The names that a function sets on its receiver. -/
def Function.sets (f : Function) : List String :=
  match f.body with
  | .script _ _ _ sets _ => sets.map Prod.fst
  | _ => []

namespace World

/-- The same objects with other modules. -/
def reloaded (w : World) (modules : Array Module) (loaded : Entries Nat) : World := { w with modules, loaded }

/-- Modules that differ in their files at most. -/
def SameModules (ms ms' : Array Module) : Prop := ∀ i : Nat, (ms[i]?).map Module.fileless = (ms'[i]?).map Module.fileless

/-- Worlds that differ at most in the files of their modules, and in which of them are loaded. -/
def Alike (w w' : World) : Prop := ∃ ms loaded, SameModules ms w.modules ∧ w' = w.reloaded ms loaded

theorem Alike.refl (w : World) : w.Alike w := ⟨w.modules, w.loaded, fun _ => rfl, rfl⟩

theorem SameModules.size_eq {ms ms' : Array Module} (h : SameModules ms ms') : ms.size = ms'.size := by
  have hend : ∀ i, ms.size ≤ i ↔ ms'.size ≤ i := by
    intro i
    rw [← Array.getElem?_eq_none_iff, ← Array.getElem?_eq_none_iff, ← Option.map_eq_none_iff, h i, Option.map_eq_none_iff]
  exact Nat.le_antisymm ((hend _).2 (Nat.le_refl _)) ((hend _).1 (Nat.le_refl _))

variable {S : String → Prop}

/-- No function sets a name that must not be set; two names are set on every protocol. -/
structure Tame (S : String → Prop) (w : World) : Prop where
  init : S "__init__"
  hook : S "__subclasshook__"
  sets : ∀ f ∈ w.functions, ∀ name ∈ f.sets, S name

/-- What may have become of a world where only the given names are set. -/
structure Evolves (S : String → Prop) (w w' : World) : Prop where
  functions : ∃ more : Array Function, w'.functions = w.functions ++ more ∧ ∀ f ∈ more, f.sets = []
  classes : w.classes.size ≤ w'.classes.size
  keeps : ∀ id < w.classes.size, (w.cls id).Keeps S (w'.cls id)
  instances : ∀ id c, w.classOf? id = some c → w'.classOf? id = some c

theorem Evolves.refl (w : World) : Evolves S w w :=
  ⟨⟨#[], by simp, by simp⟩, Nat.le_refl _, fun _ _ => Class.Keeps.refl _, fun _ _ h => h⟩

theorem Evolves.trans {w w' w'' : World} (h : Evolves S w w') (h' : Evolves S w' w'') : Evolves S w w'' := by
  obtain ⟨more, hmore, hsets⟩ := h.functions
  obtain ⟨more', hmore', hsets'⟩ := h'.functions
  refine ⟨⟨more ++ more', ?_, ?_⟩, Nat.le_trans h.classes h'.classes, ?_, fun id c hc => ?_⟩
  · rw [hmore', hmore, Array.append_assoc]
  · intro f hf
    exact (Array.mem_append.1 hf).elim (hsets f) (hsets' f)
  · intro id hid
    exact (h.keeps id hid).trans (h'.keeps id (Nat.lt_of_lt_of_le hid h.classes))
  · exact h'.instances id c (h.instances id c hc)

/-- Where more names may be set, more may become of a world. -/
theorem Evolves.mono {T : String → Prop} {w w' : World} (h : Evolves S w w') (hST : ∀ name, S name → T name) :
    Evolves T w w' :=
  ⟨h.functions, h.classes, fun id hid => (h.keeps id hid).mono hST, h.instances⟩

/-- Functions keep their numbers. -/
theorem Evolves.function? {w w' : World} (h : Evolves S w w') {id : Nat} {f : Function} (hf : w.function? id = some f) :
    w'.function? id = some f := by
  obtain ⟨more, hmore, -⟩ := h.functions
  obtain ⟨hlt, -⟩ := Array.getElem?_eq_some_iff.1 hf
  show w'.functions[id]? = some f
  rw [hmore, Array.getElem?_append_left hlt]
  exact hf

/-- A function that is new sets nothing. -/
theorem Evolves.mem_functions {w w' : World} (h : Evolves S w w') {f : Function} (hf : f ∈ w'.functions) :
    f ∈ w.functions ∨ f.sets = [] := by
  obtain ⟨more, hmore, hsets⟩ := h.functions
  rw [hmore] at hf
  exact (Array.mem_append.1 hf).imp id (hsets f)

/-- Where the classes and functions stay as they are and no instance changes its class, a world may evolve. -/
theorem Evolves.of_instances {w w' : World} (hclasses : w'.classes = w.classes) (hfunctions : w'.functions = w.functions)
    (hinstances : ∀ id c, w.classOf? id = some c → w'.classOf? id = some c) : Evolves S w w' := by
  refine ⟨⟨#[], by simpa using hfunctions, by simp⟩, Nat.le_of_eq (by rw [hclasses]), fun id _ => ?_, hinstances⟩
  rw [show w'.cls id = w.cls id by rw [cls, cls, hclasses]]
  exact Class.Keeps.refl _

theorem Evolves.of_eq {w w' : World} (hclasses : w'.classes = w.classes) (hfunctions : w'.functions = w.functions)
    (hinstances : w'.instances = w.instances) : Evolves S w w' :=
  Evolves.of_instances hclasses hfunctions fun id c hc => by rwa [classOf?, hinstances]

/-- An attribute of an instance is set. -/
theorem evolves_setAttribute (w : World) (id : Nat) (name : String) (v : Value) : Evolves S w
    { w with instances := w.instances.modify id fun i => { i with attributes := i.attributes.put name v } } := by
  refine Evolves.of_instances rfl rfl fun other c hc => ?_
  simp only [classOf?, Array.getElem?_modify] at hc ⊢
  split
  · simpa using hc
  · exact hc

/-- An instance is made. -/
theorem evolves_pushInstance (w : World) (i : Instance) : Evolves S w { w with instances := w.instances.push i } := by
  refine Evolves.of_instances rfl rfl fun id c hc => ?_
  obtain ⟨j, hj, rfl⟩ := Option.map_eq_some_iff.1 hc
  have hlt := (Array.getElem?_eq_some_iff.1 hj).1
  simp only [classOf?, Array.getElem?_push_lt hlt]
  rw [← Array.getElem?_eq_getElem hlt, hj]
  rfl

/-- A class that is changed may lose what may be set. -/
theorem evolves_modify (w : World) {id : Nat} {change : Class → Class} (hchange : ∀ c, Class.Keeps S c (change c)) :
    Evolves S w { w with classes := w.classes.modify id change } := by
  refine ⟨⟨#[], by simp, by simp⟩, Nat.le_of_eq Array.size_modify.symm, fun k hk => ?_, fun _ _ h => h⟩
  have hcls : World.cls { w with classes := w.classes.modify id change } k =
      if id = k then change (w.cls k) else w.cls k := by
    simp only [World.cls, Array.getElem?_modify, Array.getElem?_eq_getElem hk]
    split <;> rfl
  rw [hcls]
  split
  · exact hchange _
  · exact Class.Keeps.refl _

theorem Tame.evolves {T : String → Prop} {w w' : World} (tame : Tame S w) (h : Evolves T w w') : Tame S w' where
  init := tame.init
  hook := tame.hook
  sets f hf name hname := by
    rcases h.mem_functions hf with hf | hnone
    · exact tame.sets f hf name hname
    · rw [hnone] at hname
      cases hname

end World

namespace Act

variable {α β : Type}

theorem runFrom_tryCatch {σ : Type} (x : Act σ α) (h : Failure → Act σ α) (s : σ) :
    (tryCatch x h).runFrom s = match x.runFrom s with
      | (.ok a, t) => (.ok a, t)
      | (.error e, t) => (h e).runFrom t := by
  show (ExceptT.run (tryCatch x h)).run s = _
  unfold runFrom
  generalize hr : x.run.run s = r
  obtain ⟨r, t⟩ := r
  have hx : StateT.run x s = (r, t) := hr
  cases r <;> simp [tryCatch, tryCatchThe, MonadExceptOf.tryCatch, ExceptT.tryCatch, hx] <;> rfl

open World (Tame SameModules Evolves)

/-- An operation that does the same whatever files the modules come of, and takes tame worlds to evolutions of them. -/
def Faithful (S : String → Prop) (x : Act World α) : Prop :=
  ∀ w ms loaded, Tame S w → SameModules ms w.modules →
    x.runFrom (w.reloaded ms loaded) = ((x.runFrom w).1, (x.runFrom w).2.reloaded ms loaded) ∧ Evolves S w (x.runFrom w).2

variable {S : String → Prop}

/-- What a faithful operation makes of a tame world is tame, with the modules that were there. -/
theorem Faithful.frame {x : Act World α} (h : Faithful S x) {w : World} (tame : Tame S w) :
    (x.runFrom w).2.modules = w.modules ∧ (x.runFrom w).2.loaded = w.loaded ∧ Tame S (x.runFrom w).2 := by
  obtain ⟨hreloaded, hev⟩ := h w w.modules w.loaded tame fun _ => rfl
  have hw : (x.runFrom w).2 = (x.runFrom w).2.reloaded w.modules w.loaded := congrArg Prod.snd hreloaded
  exact ⟨(congrArg World.modules hw).trans rfl, (congrArg World.loaded hw).trans rfl, tame.evolves hev⟩

theorem Faithful.evolves {x : Act World α} (h : Faithful S x) {w w' : World} (tame : Tame S w) {r : Except Failure α}
    (hrun : x.runFrom w = (r, w')) : Evolves S w w' := by
  have hev := (h w w.modules [] tame fun _ => rfl).2
  rwa [hrun] at hev

theorem Faithful.modules_eq {x : Act World α} (h : Faithful S x) {w w' : World} (tame : Tame S w) {r : Except Failure α}
    (hrun : x.runFrom w = (r, w')) : w'.modules = w.modules := by
  have hframe := (h.frame tame).1
  rwa [hrun] at hframe

/-- In worlds that are alike, a faithful operation does alike. -/
theorem Faithful.alike {x : Act World α} (h : Faithful S x) {w w' : World} (tame : Tame S w) (alike : w.Alike w') :
    (x.runFrom w').1 = (x.runFrom w).1 ∧ (x.runFrom w).2.Alike (x.runFrom w').2 := by
  obtain ⟨ms, loaded, same, rfl⟩ := alike
  obtain ⟨hmodules, -⟩ := h.frame tame
  rw [(h w ms loaded tame same).1]
  exact ⟨rfl, ms, loaded, by rwa [hmodules], rfl⟩

theorem faithful_pure (a : α) : Faithful S (pure a) := fun w _ _ _ _ => ⟨rfl, Evolves.refl w⟩

theorem faithful_throw (e : Failure) : Faithful S (throw e : Act World α) := fun w _ _ _ _ => ⟨rfl, Evolves.refl w⟩

theorem faithful_fail (kind : Fault) : Faithful S (World.fail kind : Act World α) := faithful_throw _

/-- What comes after a failure does not count. -/
theorem faithful_fail_bind (kind : Fault) (f : α → Act World β) : Faithful S (World.fail kind >>= f) :=
  fun w _ _ _ _ => ⟨rfl, Evolves.refl w⟩

/-- A question to the world is faithful if other files give the same answer. -/
theorem Faithful.read {f : World → Act World α}
    (hread : ∀ w ms loaded, SameModules ms w.modules → f (w.reloaded ms loaded) = f w)
    (hf : ∀ w, Tame S w → Faithful S (f w)) : Faithful S (get >>= f) := by
  intro w ms loaded tame same
  rw [runFrom_bind, runFrom_bind, runFrom_get, runFrom_get]
  dsimp only
  rw [hread w ms loaded same]
  exact hf w tame w ms loaded tame same

theorem faithful_modify {g : World → World} (hreloaded : ∀ w ms loaded, g (w.reloaded ms loaded) = (g w).reloaded ms loaded)
    (hev : ∀ w, Tame S w → Evolves S w (g w)) : Faithful S (modify g : Act World PUnit) := by
  intro w ms loaded tame _
  rw [runFrom_modify, runFrom_modify, hreloaded]
  exact ⟨rfl, hev w tame⟩

theorem Faithful.bind {x : Act World α} {f : α → Act World β} (hx : Faithful S x) (hf : ∀ a, Faithful S (f a)) :
    Faithful S (x >>= f) := by
  intro w ms loaded tame same
  obtain ⟨hreloaded, hev⟩ := hx w ms loaded tame same
  obtain ⟨hmodules, -, tame'⟩ := hx.frame tame
  rw [runFrom_bind, runFrom_bind, hreloaded]
  generalize x.runFrom w = r at hev hmodules tame'
  obtain ⟨r, u⟩ := r
  cases r with
  | error e => exact ⟨rfl, hev⟩
  | ok a =>
    obtain ⟨hreloaded', hev'⟩ := hf a u ms loaded tame' (by rwa [hmodules])
    exact ⟨hreloaded', hev.trans hev'⟩

theorem Faithful.tryCatch {x : Act World α} {h : Failure → Act World α} (hx : Faithful S x) (hh : ∀ e, Faithful S (h e)) :
    Faithful S (MonadExcept.tryCatch x h) := by
  intro w ms loaded tame same
  obtain ⟨hreloaded, hev⟩ := hx w ms loaded tame same
  obtain ⟨hmodules, -, tame'⟩ := hx.frame tame
  rw [runFrom_tryCatch, runFrom_tryCatch, hreloaded]
  generalize x.runFrom w = r at hev hmodules tame'
  obtain ⟨r, u⟩ := r
  cases r with
  | ok a => exact ⟨rfl, hev⟩
  | error e =>
    obtain ⟨hreloaded', hev'⟩ := hh e u ms loaded tame' (by rwa [hmodules])
    exact ⟨hreloaded', hev.trans hev'⟩

theorem Faithful.mapM {f : α → Act World β} {as : List α} (h : ∀ a ∈ as, Faithful S (f a)) : Faithful S (as.mapM f) := by
  induction as with
  | nil => exact faithful_pure []
  | cons a as ih =>
    rw [List.mapM_cons]
    refine (h a List.mem_cons_self).bind fun b => ?_
    exact (ih fun x hx => h x (List.mem_cons_of_mem _ hx)).bind fun bs => faithful_pure _

theorem Faithful.foldlM {f : β → α → Act World β} {as : List α} (h : ∀ b, ∀ a ∈ as, Faithful S (f b a)) (b : β) :
    Faithful S (as.foldlM f b) := by
  induction as generalizing b with
  | nil => exact faithful_pure b
  | cons a as ih =>
    rw [List.foldlM_cons]
    exact (h b a List.mem_cons_self).bind fun b' => ih (fun b x hx => h b x (List.mem_cons_of_mem _ hx)) b'

/-! ## The operations on the world -/

theorem faithful_report (e : Event) : Faithful S (World.report e) :=
  faithful_modify (fun _ _ _ => rfl) fun _ _ => Evolves.of_eq rfl rfl rfl

theorem faithful_updateClass {id : Nat} {change : Class → Class} (hchange : ∀ c, Class.Keeps S c (change c)) :
    Faithful S (World.updateClass id change) :=
  faithful_modify (fun _ _ _ => rfl) fun w _ => World.evolves_modify w hchange

theorem faithful_putSlot {id : Nat} {name : String} {slot : Slot} (hname : S name) : Faithful S (World.putSlot id name slot) :=
  faithful_updateClass fun _ => ⟨fun _ => rfl, fun _ => rfl, fun _ => rfl, rfl, rfl, fun _ hother =>
    Entries.get?_put_of_ne _ _ fun he => hother (he ▸ hname)⟩

theorem faithful_addFunction {f : Function} (hf : f.sets = []) : Faithful S (World.addFunction f) := by
  refine Faithful.read (fun _ _ _ _ => rfl) fun w _ => ?_
  refine (faithful_modify (fun _ _ _ => rfl) fun w _ => ?_).bind fun _ => faithful_pure _
  refine ⟨⟨#[f], by simp, ?_⟩, Nat.le_refl _, fun _ _ => Class.Keeps.refl _, fun _ _ h => h⟩
  intro g hg
  rw [List.mem_singleton.1 (Array.mem_def.1 hg)]
  exact hf

end Act

end Amalgam
