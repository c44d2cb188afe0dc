import Amalgam.Proofs.World.Defaults
import Amalgam.Proofs.World.Declaring
import Amalgam.Proofs.World.Definition

/-!
# The methods of a class that is defined

The line of a method makes a function of the parameters that its formal ones become, each in what the lines before have
made of the world (`World.runMethod_function`). Unless a later line stores something under the same name, the class stores
that function (`World.Defines.exists_method`).
-/

namespace Amalgam

/-- Each step of a traversal runs in what has become of the world. -/
theorem Act.Faithful.forall₂_of_mapM {α β : Type} {S : String → Prop} {f : α → Act World β} (hf : ∀ a, Faithful S (f a))
    {as : List α} {bs : List β} {w w' : World} (tame : World.Tame S w) (h : (as.mapM f).runFrom w = (.ok bs, w')) :
    List.Forall₂ (fun a b => ∃ u u', World.Evolves S w u ∧ u.modules = w.modules ∧ (f a).runFrom u = (.ok b, u')) as bs := by
  induction as generalizing bs w with
  | nil =>
    cases h
    exact .nil
  | cons a as ih =>
    rw [List.mapM_cons] at h
    obtain ⟨b, u, hb, h⟩ := Act.bind_eq_ok.1 h
    obtain ⟨rest, v, hrest, h⟩ := Act.bind_eq_ok.1 h
    cases h
    have hev := (hf a).evolves tame hb
    have hmodules := (hf a).modules_eq tame hb
    refine .cons ⟨w, u, World.Evolves.refl w, rfl, hb⟩ ((ih (tame.evolves hev) hrest).imp ?_)
    rintro a b ⟨x, y, hx, hm, hrun⟩
    exact ⟨x, y, hev.trans hx, hm.trans hmodules, hrun⟩

namespace World

variable {S : String → Prop} {w w' : World} {s s' : Scope} {home id : Nat} {c : Source.Class} {m : Source.Method}

/-! ## One line -/

/-- A parameter is what its formal one says; its default is evaluated. -/
theorem parameter_eq_ok {g : Source.Formal} {p : Parameter} (h : (s.parameter g).runFrom w = (.ok p, w')) :
    p.name = g.name ∧ p.kind = g.kind ∧ p.hint = g.hint.map hintOf ∧
      (g.default = none ∧ p.default = none ∨
        ∃ d v, g.default = some d ∧ p.default = some v ∧ (s.defaultValue d).runFrom w = (.ok v, w')) := by
  obtain ⟨default, u, hdefault, h⟩ := Act.bind_eq_ok.1 h
  cases h
  refine ⟨rfl, rfl, rfl, ?_⟩
  cases hd : g.default with
  | none =>
    rw [hd] at hdefault
    cases hdefault
    exact Or.inl ⟨rfl, rfl⟩
  | some d =>
    rw [hd] at hdefault
    obtain ⟨v, x, hv, hdone⟩ := Act.bind_eq_ok.1 hdefault
    cases hdone
    exact Or.inr ⟨d, v, rfl, rfl, hv⟩

/-- The function that the line of a method makes, in a module of some name. -/
def Scope.functionOf (s : Scope) (m : Source.Method) (moduleName : String) (params : List Parameter) : Function where
  name := Text.privateName s.owner m.name
  qualname := s.owner ++ "." ++ Text.privateName s.owner m.name
  home := moduleName
  params := params
  isAsync := m.isAsync
  body := .generated (m.within s.owner).body s.home

/-- A method that gets the mark of its kind is stored as a new function. -/
theorem runMethod_function (decorates : ∀ f, s.decorate m.kind f = pure (.routine m.kind f))
    (h : (s.runMethod m).runFrom w = (.ok s', w')) :
    ∃ params u f moduleName, ((m.within s.owner).formals.mapM s.parameter).runFrom w = (.ok params, u) ∧
      w'.function? f = some (s.functionOf m moduleName params) ∧
      s' = { s with slots := s.slots.put (Text.privateName s.owner m.name) (.routine m.kind f) } := by
  obtain ⟨params, u, hparams, h⟩ := Act.bind_eq_ok.1 h
  obtain ⟨now, _, hnow, h⟩ := Act.bind_eq_ok.1 h
  cases hnow
  obtain ⟨f, v, hf, h⟩ := Act.bind_eq_ok.1 h
  cases hf
  obtain ⟨slot, x, hslot, h⟩ := Act.bind_eq_ok.1 h
  have hslot := (congrArg (Act.runFrom · _) (decorates u.functions.size)).symm.trans hslot
  cases hslot
  cases h
  refine ⟨params, u, u.functions.size, ((u.modules[s.home]?).map Module.name).getD "", hparams, ?_, rfl⟩
  exact Array.getElem?_push_size

/-! ## The class -/

/-- A class that is defined comes first in its order. -/
theorem Defines.exists_order (h : Defines S home c w id w') : ∃ ancestors, w'.order id = id :: ancestors := by
  obtain ⟨bases, s, start, made, order, derives, body, number, known, linear, keeps, evolves⟩ := h
  obtain ⟨ancestors, -, rfl⟩ := Option.map_eq_some_iff.1 linear
  exact ⟨ancestors, keeps.order⟩

/-- So it does in the line of its ancestors. -/
theorem Defines.exists_lineage (h : Defines S home c w id w') (furnished : w.IsFurnished) :
    ∃ rest, w'.lineage id = id :: rest := by
  have hid : fresh.classes.size ≤ id := Nat.le_trans furnished.classes h.new
  obtain ⟨ancestors, horder⟩ := h.exists_order
  refine ⟨ancestors.filter fun a => a != objectId && !markIds.contains a, ?_⟩
  rw [lineage, horder]
  refine List.filter_cons_of_pos ?_
  have h7 : 7 ≤ id := hid
  simp only [objectId, markIds, abcId, protocolId, genericId, List.contains_eq_mem, List.mem_cons, List.not_mem_nil,
    or_false]
  have : id ≠ 0 ∧ ¬(id = 1 ∨ id = 2 ∨ id = 3) := by omega
  simp [this]

/-- Only constructors are bound by their names. -/
theorem impliedKind_eq_self {name : String} (h : name ∉ constructorNames) (slot : Slot) : impliedKind name slot = slot := by
  have hnames : name ≠ "__new__" ∧ name ≠ "__init_subclass__" ∧ name ≠ "__class_getitem__" := by
    refine ⟨?_, ?_, ?_⟩ <;> (rintro rfl; exact h (by decide))
  obtain ⟨hnew, hsub, hitem⟩ := hnames
  unfold impliedKind
  split
  · rw [if_neg (by simpa using hnew), if_neg (by simp [hsub, hitem])]
  · rfl

/-! ## All lines -/

/-- Steps none of which changes the class or the module keep both. -/
theorem place_foldlM {α : Type} {step : Scope → α → Act World Scope}
    (hstep : ∀ a s w s' w', (step s a).runFrom w = (.ok s', w') → s'.owner = s.owner ∧ s'.home = s.home) {as : List α}
    (h : (as.foldlM step s).runFrom w = (.ok s', w')) : s'.owner = s.owner ∧ s'.home = s.home := by
  induction as generalizing s w with
  | nil =>
    cases h
    exact ⟨rfl, rfl⟩
  | cons a as ih =>
    rw [List.foldlM_cons] at h
    obtain ⟨next, u, hnext, h⟩ := Act.bind_eq_ok.1 h
    obtain ⟨howner, hhome⟩ := hstep a s w next u hnext
    obtain ⟨howner', hhome'⟩ := ih h
    exact ⟨howner'.trans howner, hhome'.trans hhome⟩

theorem place_runField {f : Source.FieldLine} (h : (s.runField f).runFrom w = (.ok s', w')) :
    s'.owner = s.owner ∧ s'.home = s.home := by
  obtain ⟨slots, hints, rfl, -⟩ := runField_shape h
  exact ⟨rfl, rfl⟩

theorem place_runMethod (h : (s.runMethod m).runFrom w = (.ok s', w')) : s'.owner = s.owner ∧ s'.home = s.home := by
  obtain ⟨slot, rfl⟩ := runMethod_shape h
  exact ⟨rfl, rfl⟩

/-- Methods of other names leave what is stored under a name. -/
theorem get?_slots_of_others {methods : List Source.Method} {owner name : String}
    (others : ∀ m ∈ methods, Text.privateName owner m.name ≠ name) (hs : s.owner = owner)
    (h : (methods.foldlM Scope.runMethod s).runFrom w = (.ok s', w')) : s'.slots.get? name = s.slots.get? name := by
  refine (get?_slots_foldlM (fun m hm s w s' w' hs hrun => ?_) hs h).2
  obtain ⟨slot, rfl⟩ := runMethod_shape hrun
  refine ⟨hs, ?_⟩
  rw [hs, Entries.get?_put_of_ne _ _ (Ne.symm (others m hm))]

variable {done rest : List Source.Method} (hmethods : c.methods = done ++ m :: rest)

include hmethods

/-- The line of a method among those of its class: what the lines before leave of the world, and the mark it gets. -/
theorem exists_line_of_leaves (tame : Tame S w) (sets : ∀ f ∈ c.fields, f.SetsIn S)
    (marked : m.kind ≠ .ofInstance → c.lines.Pairwise Source.Line.Leaves) (h : Leaves home c w s w') :
    ∃ (before after : Scope) (u u' : World),
      (before.owner = c.name ∧ before.home = home) ∧ Evolves S w u ∧ u.modules = w.modules ∧
      (∀ f, before.decorate m.kind f = pure (.routine m.kind f)) ∧
      (before.runMethod m).runFrom u = (.ok after, u') ∧ (rest.foldlM Scope.runMethod after).runFrom u' = (.ok s, w') := by
  obtain ⟨between, v, hfields, hrun⟩ := h
  rw [hmethods, List.foldlM_append] at hrun
  obtain ⟨before, u, hdone, hrun⟩ := Act.bind_eq_ok.1 hrun
  rw [List.foldlM_cons] at hrun
  obtain ⟨after, u', hline, hrest⟩ := Act.bind_eq_ok.1 hrun
  have hfieldsFaithful : Act.Faithful S (c.fields.foldlM Scope.runField { home, owner := c.name }) :=
    Act.Faithful.foldlM (fun s f hf => faithful_runField s (sets f hf)) _
  have hdoneFaithful : Act.Faithful S (done.foldlM Scope.runMethod between) :=
    Act.Faithful.foldlM (fun s m _ => faithful_runMethod s m) _
  have hev := hfieldsFaithful.evolves tame hfields
  obtain ⟨howner, hhome⟩ := place_foldlM (fun f s w s' w' => place_runField) hfields
  obtain ⟨howner', hhome'⟩ := place_foldlM (fun m s w s' w' => place_runMethod) hdone
  refine ⟨before, after, u, u', ⟨howner'.trans howner, hhome'.trans hhome⟩,
    hev.trans (hdoneFaithful.evolves (tame.evolves hev) hdone), ?_, fun f => ?_, hline, hrest⟩
  · exact (hdoneFaithful.modules_eq (tame.evolves hev) hdone).trans (hfieldsFaithful.modules_eq tame hfields)
  · by_cases hkind : m.kind = .ofInstance
    · rw [hkind]
      rfl
    · exact decorate_of_leaves (marked hkind) hmethods hfields hdone f

/-- The lines of a class leave a function under the name of a method, if no later method has its name. -/
theorem exists_slot_of_leaves (marked : m.kind ≠ .ofInstance → c.lines.Pairwise Source.Line.Leaves)
    (later : ∀ m' ∈ rest, Text.privateName c.name m'.name ≠ Text.privateName c.name m.name) (h : Leaves home c w s w') :
    ∃ f, s.slots.get? (Text.privateName c.name m.name) = some (.routine m.kind f) := by
  obtain ⟨before, after, u, u', ⟨howner, -⟩, -, -, hdecorates, hline, hrest⟩ :=
    exists_line_of_leaves hmethods (tame_everything w) (fun f _ => setsIn_everything f) marked h
  obtain ⟨params, v, f, moduleName, -, -, rfl⟩ := runMethod_function hdecorates hline
  refine ⟨f, ?_⟩
  rw [get?_slots_of_others later (by exact howner) hrest, howner, Entries.get?_put_self]

/-- A class that is defined stores the function of a method, if no later method has its name. -/
theorem Defines.exists_method (h : Defines S home c w id w') (tame : Tame S w) (sets : ∀ f ∈ c.fields, f.SetsIn S)
    (marked : m.kind ≠ .ofInstance → c.lines.Pairwise Source.Line.Leaves) (kept : ¬S (Text.privateName c.name m.name))
    (later : ∀ m' ∈ rest, Text.privateName c.name m'.name ≠ Text.privateName c.name m.name) :
    ∃ (s : Scope) (u u' : World) (params : List Parameter) (f : Nat) (moduleName : String),
      (s.owner = c.name ∧ s.home = home) ∧ Evolves S w u ∧ u.modules = w.modules ∧
      ((m.within c.name).formals.mapM s.parameter).runFrom u = (.ok params, u') ∧
      w'.function? f = some (s.functionOf m moduleName params) ∧
      (w'.cls id).slots.get? (Text.privateName c.name m.name) =
        some (impliedKind (Text.privateName c.name m.name) (.routine m.kind f)) := by
  obtain ⟨bases, s, start, made, order, derives, body, number, known, linear, keeps, evolves⟩ := h
  have hbases : Act.Faithful S (c.bases.mapM (baseOf home)) := Act.Faithful.mapM fun name _ => faithful_baseOf home name
  have hev := hbases.evolves tame derives
  obtain ⟨before, after, u, u', ⟨howner, hhome⟩, hev', hmodules, hdecorates, hline, hrest⟩ :=
    exists_line_of_leaves hmethods (tame.evolves hev) sets marked body
  obtain ⟨params, v, f, moduleName, hparams, hfunction, rfl⟩ := runMethod_function hdecorates hline
  rw [howner] at hparams
  have hafter : Evolves Everything u' made :=
    (Act.Faithful.foldlM (fun s m _ => faithful_runMethod s m) _).evolves (tame_everything u') hrest
  have hslot : s.slots.get? (Text.privateName c.name m.name) = some (.routine m.kind f) := by
    rw [get?_slots_of_others later (by exact howner) hrest, howner, Entries.get?_put_self]
  refine ⟨before, u, v, params, f, moduleName, ⟨howner, hhome⟩, hev.trans hev',
    hmodules.trans (hbases.modules_eq tame derives), hparams, evolves.function? (hafter.function? hfunction), ?_⟩
  rw [keeps.slots _ kept]
  show (Entries.get? (s.slots.map fun e => (e.1, impliedKind e.1 e.2)) _) = _
  rw [Entries.get?_map, hslot]
  rfl

end World

end Amalgam
