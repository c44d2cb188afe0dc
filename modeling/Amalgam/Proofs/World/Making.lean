import Amalgam.Proofs.World.Ancestry
import Amalgam.Proofs.World.Methods

/-!
# Classes that are put together without a stir

Where the fields of a class are literals and attributes of other classes, and the defaults of its parameters only read,
the body of its definition makes functions and nothing else (`World.leaves_of_passive`). What the body leaves under a name
is what the class stores (`World.made_of_defineClass`), if no ancestor has a hook for new classes, whatever the functions of
the world do when they are called, or if none of them sets the name.
-/

namespace Amalgam

open Text (privateName)

/-- The names that are set on a class that is new, if its ancestors have no hooks of their own. -/
def World.Prepared (name : String) : Prop := name = "__init__" ∨ name = "__subclasshook__"

/-- A world with more functions. -/
def World.withMore (w : World) (more : Array Function) : World := { w with functions := w.functions ++ more }

namespace Source

/-- The value that the line of a field has, if any. -/
inductive FieldLine.Gives (w : World) (names : Entries Value) (owner : String) (f : FieldLine) : Option Value → Prop
  | nothing (h : f.value = none) : Gives w names owner f none
  | literal {text : String} (h : f.value = some (.literal text)) : Gives w names owner f (some (World.literalValue text))
  | copied {source : String} {id : Nat} {v : Value} (h : f.value = some (.copied source))
    (bound : names.get? (privateName owner source) = some (.cls id)) (hv : w.classAttribute? id f.name = some v) :
    Gives w names owner f (some v)

/-- The line of a field with a plain name; what it copies is an attribute of a class. -/
structure FieldLine.IsPassive (names : Entries Value) (owner : String) (f : FieldLine) : Prop where
  undotted : '.' ∉ f.name.toList
  plain : privateName owner f.name = f.name
  bound : ∀ source, f.value = some (.copied source) → ∃ id, names.get? (privateName owner source) = some (.cls id)

/-- The default of a parameter can be told without a change to the world. -/
def Formal.IsPassive (home : Nat) (w : World) (f : Formal) : Prop :=
  ∀ (s : World.Scope) more p w', s.home = home → (s.parameter f).runFrom (w.withMore more) = (.ok p, w') →
    w' = w.withMore more

/-- Code that only reads while its class is put together, in a module of the given number and names. -/
structure Class.IsPassive (home : Nat) (names : Entries Value) (w : World) (c : Class) : Prop where
  fields : ∀ f ∈ c.fields, f.IsPassive names c.name
  named : ∀ m ∈ c.methods, privateName c.name m.name = m.name
  defaults : ∀ m ∈ c.methods, ∀ f ∈ (m.within c.name).formals, f.IsPassive home w
  marks : c.lines.Pairwise Line.Leaves

/-- A function is made of a method in a module of the given number, by a class of the given name. -/
def Method.Makes (home : Nat) (owner : String) (w : World) (m : Method) (F : Function) : Prop :=
  ∃ (s : World.Scope) (params : List Parameter) (moduleName : String) (more : Array Function),
    (s.home = home ∧ s.owner = owner) ∧
      List.Forall₂ (fun f p => (s.parameter f).runFrom (w.withMore more) = (.ok p, w.withMore more))
        (m.within owner).formals params ∧
      F = s.functionOf m moduleName params

end Source

namespace World

variable {w w' : World} {s s' : Scope} {home id : Nat} {M : Module} {c : Source.Class} {name : String}

@[simp] theorem withMore_empty (w : World) : w.withMore #[] = w := by
  rw [withMore, Array.append_empty]

theorem function?_withMore {f : Nat} {F : Function} (h : w.function? f = some F) (more : Array Function) :
    (w.withMore more).function? f = some F := by
  show (w.functions ++ more)[f]? = some F
  rw [Array.getElem?_append_left (Array.getElem?_eq_some_iff.1 h).1]
  exact h

theorem evolves_withMore {S : String → Prop} (w : World) {more : Array Function} (h : ∀ f ∈ more, f.sets = []) :
    Evolves S w (w.withMore more) :=
  ⟨⟨more, rfl, h⟩, Nat.le_refl _, fun _ _ => Class.Keeps.refl _, fun _ _ h => h⟩

/-! ## Reading -/

theorem world_of_globalIn {v : Value} (h : (globalIn home name).runFrom w = (.ok v, w')) : w' = w := by
  unfold globalIn at h
  rw [Act.runFrom_bind, Act.runFrom_get] at h
  dsimp only at h
  split at h
  · cases h
    rfl
  · cases h

theorem world_of_bases {names : List String} {bases : List Nat}
    (h : (names.mapM (baseOf home)).runFrom w = (.ok bases, w')) : w' = w := by
  induction names generalizing bases w with
  | nil =>
    cases h
    rfl
  | cons name names ih =>
    rw [List.mapM_cons] at h
    obtain ⟨base, u, hbase, h⟩ := Act.bind_eq_ok.1 h
    obtain ⟨more, v, hmore, h⟩ := Act.bind_eq_ok.1 h
    cases h
    obtain ⟨x, x', hx, hbase⟩ := Act.bind_eq_ok.1 hbase
    obtain rfl := world_of_globalIn hx
    cases x <;> cases hbase
    exact ih hmore

theorem attr_cls_eq_ok {v : Value} (h : (behaviour.attr (.cls id) name).runFrom w = (.ok v, w')) :
    w.classAttribute? id name = some v ∧ w' = w := by
  change ((Behaviour.levels 299).next.attr (.cls id) name).runFrom w = _ at h
  unfold Behaviour.next at h
  dsimp only at h
  rw [Act.runFrom_bind, Act.runFrom_get] at h
  simp only [plainAttribute?] at h
  cases hattribute : w.classAttribute? id name with
  | none =>
    rw [hattribute] at h
    cases h
  | some x =>
    rw [hattribute] at h
    cases h
    exact ⟨rfl, rfl⟩

/-! ## The fields -/

/-- The line of a field changes nothing but the scope. -/
theorem runField_of_passive {f : Source.FieldLine} (passive : f.IsPassive M.names s.owner) (hM : w.modules[s.home]? = some M)
    (h : (s.runField f).runFrom w = (.ok s', w')) : w' = w ∧ ∃ value, f.Gives w M.names s.owner value ∧
      s' = { s with
        slots := (value.map w.slotOf).elim s.slots (s.slots.put f.name)
        hints := (f.hint.map hintOf).elim s.hints (s.hints.put f.name) } := by
  have hpath : (Text.splitOnChar '.' f.name).map (privateName s.owner) = [f.name] := by
    rw [Text.splitOnChar_of_not_mem passive.undotted, List.map_singleton, passive.plain]
  unfold Scope.runField at h
  rw [hpath] at h
  obtain ⟨value, u, hvalue, h⟩ := Act.bind_eq_ok.1 h
  have hgives : u = w ∧ f.Gives w M.names s.owner value := by
    cases hf : f.value with
    | none =>
      rw [hf] at hvalue
      cases hvalue
      exact ⟨rfl, .nothing hf⟩
    | some init =>
      rw [hf] at hvalue
      obtain ⟨v, x, hv, hdone⟩ := Act.bind_eq_ok.1 hvalue
      cases hdone
      cases init with
      | literal text =>
        cases hv
        exact ⟨rfl, .literal hf⟩
      | copied source =>
        obtain ⟨id, hid⟩ := passive.bound source hf
        obtain ⟨o, y, ho, hread⟩ := Act.bind_eq_ok.1 hv
        obtain ⟨rfl, rfl⟩ := globalIn_eq_ok hM hid ho
        rw [List.foldlM_cons] at hread
        obtain ⟨v', z, hattr, hread⟩ := Act.bind_eq_ok.1 hread
        cases hread
        obtain ⟨hattribute, rfl⟩ := attr_cls_eq_ok hattr
        exact ⟨rfl, .copied hf hid hattribute⟩
  obtain ⟨rfl, hgives⟩ := hgives
  refine ⟨?_, value, hgives, ?_⟩ <;> cases value <;> cases hhint : f.hint <;> rw [hhint] at h <;> cases h <;> rfl

/-- What a scope that lines of fields leave has under a name, given the lines of that name. -/
theorem runFields_of_passive (name : String) {fields : List Source.FieldLine} (passive : ∀ f ∈ fields, f.IsPassive M.names s.owner)
    (hM : w.modules[s.home]? = some M) (h : (fields.foldlM Scope.runField s).runFrom w = (.ok s', w')) :
    w' = w ∧ s'.home = s.home ∧ s'.owner = s.owner ∧
      (fields.filter (·.name == name) = [] → s'.slots.get? name = s.slots.get? name ∧ s'.hints.get? name = s.hints.get? name) ∧
      ∀ f, fields.filter (·.name == name) = [f] → ∃ value, f.Gives w M.names s.owner value ∧
        s'.slots.get? name = (value.map w.slotOf).or (s.slots.get? name) ∧
        s'.hints.get? name = (f.hint.map hintOf).or (s.hints.get? name) := by
  induction fields generalizing s with
  | nil =>
    cases h
    exact ⟨rfl, rfl, rfl, fun _ => ⟨rfl, rfl⟩, fun _ hf => by cases hf⟩
  | cons g rest ih =>
    rw [List.foldlM_cons] at h
    obtain ⟨next, u, hnext, h⟩ := Act.bind_eq_ok.1 h
    obtain ⟨rfl, value, hgives, rfl⟩ := runField_of_passive (passive g List.mem_cons_self) hM hnext
    obtain ⟨rfl, hhome, howner, hkept, hset⟩ :=
      ih (by exact fun f hf => passive f (List.mem_cons_of_mem _ hf)) (by exact hM) h
    refine ⟨rfl, hhome, howner, ?_⟩
    by_cases hg : g.name = name
    · subst hg
      rw [List.filter_cons_of_pos (by simp)]
      refine ⟨fun hnil => absurd hnil (List.cons_ne_nil _ _), fun f hf => ?_⟩
      obtain ⟨rfl, hrest⟩ := List.cons.inj hf
      obtain ⟨hslots, hhints⟩ := hkept hrest
      refine ⟨value, hgives, hslots.trans ?_, hhints.trans ?_⟩
      · cases value with
        | none => rfl
        | some v => exact Entries.get?_put_self _ _ _
      · cases g.hint with
        | none => rfl
        | some t => exact Entries.get?_put_self _ _ _
    · rw [List.filter_cons_of_neg (by simpa using hg)]
      have hslots : ((value.map w'.slotOf).elim s.slots (s.slots.put g.name)).get? name = s.slots.get? name := by
        cases value with
        | none => rfl
        | some v => exact Entries.get?_put_of_ne _ _ (Ne.symm hg)
      have hhints : ((g.hint.map hintOf).elim s.hints (s.hints.put g.name)).get? name = s.hints.get? name := by
        cases g.hint with
        | none => rfl
        | some t => exact Entries.get?_put_of_ne _ _ (Ne.symm hg)
      simp only [hslots, hhints] at hkept hset
      exact ⟨hkept, hset⟩

/-! ## The methods -/

/-- Parameters that are passive come of one world, and leave it. -/
theorem parameters_of_passive {formals : List Source.Formal} {params : List Parameter} {more : Array Function}
    (passive : ∀ f ∈ formals, f.IsPassive s.home w) (h : (formals.mapM s.parameter).runFrom (w.withMore more) = (.ok params, w')) :
    w' = w.withMore more ∧ List.Forall₂ (fun f p => (s.parameter f).runFrom (w.withMore more) = (.ok p, w.withMore more))
      formals params := by
  induction formals generalizing params with
  | nil =>
    cases h
    exact ⟨rfl, .nil⟩
  | cons f rest ih =>
    rw [List.mapM_cons] at h
    obtain ⟨p, u, hp, h⟩ := Act.bind_eq_ok.1 h
    obtain ⟨ps, v, hps, h⟩ := Act.bind_eq_ok.1 h
    cases h
    obtain rfl := passive f List.mem_cons_self s more p u rfl hp
    obtain ⟨rfl, hall⟩ := ih (fun f hf => passive f (List.mem_cons_of_mem _ hf)) hps
    exact ⟨rfl, .cons hp hall⟩

/-- The line of a method makes its function and stores it. -/
theorem runMethod_of_passive {m : Source.Method} {more : Array Function}
    (passive : ∀ f ∈ (m.within s.owner).formals, f.IsPassive s.home w) (named : privateName s.owner m.name = m.name)
    (decorates : ∀ f, s.decorate m.kind f = pure (.routine m.kind f))
    (h : (s.runMethod m).runFrom (w.withMore more) = (.ok s', w')) :
    ∃ params moduleName, List.Forall₂ (fun f p => (s.parameter f).runFrom (w.withMore more) = (.ok p, w.withMore more))
        (m.within s.owner).formals params ∧
      w' = w.withMore (more.push (s.functionOf m moduleName params)) ∧
      s' = { s with slots := s.slots.put m.name (.routine m.kind (w.withMore more).functions.size) } := by
  obtain ⟨params, u, hparams, h⟩ := Act.bind_eq_ok.1 h
  obtain ⟨rfl, hall⟩ := parameters_of_passive passive hparams
  obtain ⟨now, _, hnow, h⟩ := Act.bind_eq_ok.1 h
  cases hnow
  obtain ⟨f, v, hf, h⟩ := Act.bind_eq_ok.1 h
  cases hf
  obtain ⟨slot, x, hslot, h⟩ := Act.bind_eq_ok.1 h
  have hslot := (congrArg (Act.runFrom · _) (decorates (w.withMore more).functions.size)).symm.trans hslot
  cases hslot
  cases h
  refine ⟨params, ((w.modules[s.home]?).map Module.name).getD "", hall, ?_, ?_⟩
  · simp only [withMore, ← Array.append_push]
    rfl
  · show Scope.mk _ _ (s.slots.put (privateName s.owner m.name) _) _ = _
    rw [named]

/-- What a scope that lines of methods leave has under a name, given the lines of that name. -/
theorem runMethods_of_passive (passive : c.IsPassive home M.names w) {done rest : List Source.Method}
    (hmethods : c.methods = done ++ rest) {between : Scope}
    (hfields : (c.fields.foldlM Scope.runField { home, owner := c.name }).runFrom w = (.ok between, w)) {more : Array Function}
    (hdone : (done.foldlM Scope.runMethod between).runFrom w = (.ok s, w.withMore more))
    (place : s.home = home ∧ s.owner = c.name) (h : (rest.foldlM Scope.runMethod s).runFrom (w.withMore more) = (.ok s', w')) :
    (∃ extra, w' = w.withMore (more ++ extra) ∧ ∀ f ∈ extra, f.sets = []) ∧ s'.hints = s.hints ∧
      (rest.filter (·.name == name) = [] → s'.slots.get? name = s.slots.get? name) ∧
      ∀ m, rest.filter (·.name == name) = [m] → ∃ f F, s'.slots.get? name = some (.routine m.kind f) ∧
        w'.function? f = some F ∧ m.Makes home c.name w F := by
  induction rest generalizing done s more with
  | nil =>
    cases h
    exact ⟨⟨#[], by simp, by simp⟩, rfl, fun _ => rfl, fun _ hm => by cases hm⟩
  | cons g rest ih =>
    have hmem : g ∈ c.methods := hmethods ▸ List.mem_append_right _ List.mem_cons_self
    rw [List.foldlM_cons] at h
    obtain ⟨next, u, hnext, h⟩ := Act.bind_eq_ok.1 h
    obtain ⟨params, moduleName, hparams, rfl, hscope⟩ := runMethod_of_passive
      (by rw [place.1, place.2]; exact passive.defaults g hmem) (by rw [place.2]; exact passive.named g hmem)
      (decorate_of_leaves passive.marks hmethods hfields hdone) hnext
    have hdone' : ((done ++ [g]).foldlM Scope.runMethod between).runFrom w =
        (.ok next, w.withMore (more.push (s.functionOf g moduleName params))) := by
      rw [List.foldlM_append]
      refine Act.bind_eq_ok.2 ⟨s, _, hdone, ?_⟩
      rw [List.foldlM_cons]
      exact Act.bind_eq_ok.2 ⟨next, _, hnext, rfl⟩
    obtain ⟨⟨extra, rfl, hsets⟩, hhints, hkept, hset⟩ := ih (by simpa using hmethods) hdone' (by rw [hscope]; exact place) h
    refine ⟨⟨#[s.functionOf g moduleName params] ++ extra, by
      rw [← Array.append_assoc, Array.append_singleton], fun f hf => ?_⟩,
      hhints.trans (by rw [hscope]), ?_⟩
    · rcases Array.mem_append.1 hf with hf | hf
      · rw [Array.mem_singleton.1 hf]
        rfl
      · exact hsets f hf
    · by_cases hg : g.name = name
      · subst hg
        rw [List.filter_cons_of_pos (by simp)]
        refine ⟨fun hnil => absurd hnil (List.cons_ne_nil _ _), fun m hm => ?_⟩
        obtain ⟨rfl, hrest⟩ := List.cons.inj hm
        refine ⟨(w.withMore more).functions.size, s.functionOf g moduleName params, ?_, ?_, s, params, moduleName, more, place, ?_, rfl⟩
        · rw [hkept hrest, hscope]
          exact Entries.get?_put_self _ _ _
        · simp [function?, withMore, Array.getElem?_append]
        · rw [← place.2]
          exact hparams
      · rw [List.filter_cons_of_neg (by simpa using hg)]
        have hslots : next.slots.get? name = s.slots.get? name := by
          rw [hscope]
          exact Entries.get?_put_of_ne _ _ (Ne.symm hg)
        rw [hslots] at hkept
        exact ⟨hkept, hset⟩

/-- What the lines of a class leave under a name: what a field of that name gives, the function of a method, or nothing. -/
theorem leaves_of_passive (name : String) (passive : c.IsPassive home M.names w) (hM : w.modules[home]? = some M) (h : Leaves home c w s w') :
    (∃ more, w' = w.withMore more ∧ ∀ f ∈ more, f.sets = []) ∧
      (c.methods.filter (·.name == name) = [] →
        (c.fields.filter (·.name == name) = [] → s.slots.get? name = none ∧ s.hints.get? name = none) ∧
        ∀ f, c.fields.filter (·.name == name) = [f] → ∃ value, f.Gives w M.names c.name value ∧
          s.slots.get? name = value.map w.slotOf ∧ s.hints.get? name = f.hint.map hintOf) ∧
      ∀ m, c.methods.filter (·.name == name) = [m] → ∃ f F, s.slots.get? name = some (.routine m.kind f) ∧
        w'.function? f = some F ∧ m.Makes home c.name w F := by
  obtain ⟨between, u, hfields, hmethods⟩ := h
  obtain ⟨rfl, hhome, howner, hnothing, hone⟩ := runFields_of_passive name passive.fields hM hfields
  rw [← withMore_empty u] at hmethods
  obtain ⟨⟨more, rfl, hsets⟩, hhints, hkept, hmade⟩ := runMethods_of_passive passive (List.nil_append c.methods).symm hfields
    (by rw [withMore_empty]; rfl) ⟨hhome, howner⟩ hmethods
  refine ⟨⟨#[] ++ more, rfl, by simpa using hsets⟩, fun hnone => ?_, hmade⟩
  rw [hkept hnone, hhints]
  refine ⟨hnothing, fun f hf => ?_⟩
  obtain ⟨value, hgives, hslots, hhints⟩ := hone f hf
  exact ⟨value, hgives, by simpa [Entries.get?] using hslots, by simpa [Entries.get?] using hhints⟩

/-! ## The class -/

/-- What may become of a world while a class that is new is made ready. -/
def Readies (w w' : World) : Prop := Evolves Prepared w w' ∧ w'.modules = w.modules

open Act (Keeps keeps_pure)

theorem keeps_updateClass {change : Class → Class} (hchange : ∀ c, Class.Keeps Prepared c (change c)) :
    Keeps w.Readies (updateClass id change) :=
  fun u h => ⟨h.1.trans (evolves_modify u hchange), h.2⟩

theorem keeps_putSlot {slot : Slot} (hname : Prepared name) : Keeps w.Readies (putSlot id name slot) :=
  keeps_updateClass fun _ => ⟨fun _ => rfl, fun _ => rfl, fun _ => rfl, rfl, rfl, fun _ hother =>
    Entries.get?_put_of_ne _ _ fun he => hother (he ▸ hname)⟩

theorem keeps_enterProtocol : Keeps w.Readies (enterProtocol id) := by
  refine Keeps.bind (fun _ h => h) fun now => ?_
  refine Keeps.bind (keeps_updateClass fun _ => ⟨fun _ => rfl, fun _ => rfl, fun _ => rfl, rfl, rfl, fun _ _ => rfl⟩) fun _ => ?_
  have hinit : Keeps w.Readies (if (now.slot? id "__init__").isNone then
      putSlot id "__init__" (.routine .ofInstance protocolInitId) else pure ()) := by
    split
    · exact keeps_putSlot (Or.inl rfl)
    · exact keeps_pure _
  have hrest : Keeps w.Readies (do
      if (now.cls id).bases.contains protocolId then
        if !(now.cls id).bases.all now.isProtocolBase then fail .type
        if (now.slot? id "__init__").isNone then putSlot id "__init__" (.routine .ofInstance protocolInitId)) := by
    split
    · dsimp only
      split
      · exact fun _ h => h
      · exact hinit
    · exact keeps_pure _
  dsimp only
  split
  · exact (keeps_putSlot (Or.inr rfl)).bind fun _ => hrest
  · exact hrest

/-- Ancestors without hooks are told of a class by nothing but what every protocol sets. -/
theorem readies_announce {ancestors : List Nat}
    (unhooked : ∀ a ∈ ancestors, (w.cls a).slots.get? "__init_subclass__" = none) :
    w.Readies ((announce id ancestors).runFrom w).2 := by
  induction ancestors with
  | nil => exact ⟨Evolves.refl w, rfl⟩
  | cons a rest ih =>
    have ih := ih fun b hb => unhooked b (List.mem_cons_of_mem _ hb)
    have hlast : Keeps w.Readies (if a == protocolId then enterProtocol id else pure ()) := by
      split
      · exact keeps_enterProtocol
      · exact keeps_pure _
    unfold announce
    rw [Act.runFrom_bind, Act.runFrom_get]
    dsimp only
    rw [unhooked a List.mem_cons_self]
    dsimp only
    rw [Act.runFrom_bind]
    generalize (announce id rest).runFrom w = r at ih
    obtain ⟨outcome, u⟩ := r
    cases outcome with
    | error e => exact ih
    | ok _ => exact hlast u ih

/-- A class whose ancestors have no hooks is what its draft says, up to what every protocol sets. -/
theorem create_of_unhooked {d : Draft} (h : (create d).runFrom w = (.ok id, w'))
    (unhooked : ∀ a ∈ (w'.order id).tail, a < w.classes.size ∧ (w.cls a).slots.get? "__init_subclass__" = none) :
    id = w.classes.size ∧ id < w'.classes.size ∧ ∃ order, Linearization.order? id d.parents w.order = some order ∧
      (d.toClass w order).Keeps Prepared (w'.cls id) ∧ Evolves Prepared w w' ∧ w'.modules = w.modules := by
  obtain ⟨-, hknown, order', horder', hkeeps'⟩ := create_eq_ok (tame_everything w) h
  obtain ⟨rfl, order, a, horder, hcomplete⟩ := create_shape h
  obtain rfl := Option.some.inj (horder.symm.trans horder')
  -- Whatever the hooks may do, they do not change the order, so the ancestors that are told are those that are there then.
  have hancestors : w'.order w.classes.size = order := hkeeps'.order
  have hpushed : ∀ a ∈ order.tail, (World.cls { w with classes := w.classes.push (d.toClass w order) } a).slots.get?
      "__init_subclass__" = none := by
    intro a ha
    obtain ⟨hlt, hhook⟩ := unhooked a (hancestors ▸ ha)
    rw [cls_push_of_lt _ hlt, hhook]
  have hready : Readies { w with classes := w.classes.push (d.toClass w order) } w' := by
    have hannounce : Readies { w with classes := w.classes.push (d.toClass w order) }
        ((announce w.classes.size order.tail).runFrom { w with classes := w.classes.push (d.toClass w order) }).2 :=
      readies_announce hpushed
    unfold complete at hcomplete
    obtain ⟨_, u, htold, hcomplete⟩ := Act.bind_eq_ok.1 hcomplete
    rw [show (d.toClass w order).order.tail = order.tail from rfl] at htold
    rw [htold] at hannounce
    split at hcomplete
    · cases hcomplete
      have hcollect : Evolves Prepared u { u with classes := u.classes.modify w.classes.size fun c =>
          { c with abstracts := abstractsOf u w.classes.size } } :=
        evolves_modify u fun _ => ⟨fun _ => rfl, fun _ => rfl, fun _ => rfl, rfl, rfl, fun _ _ => rfl⟩
      exact ⟨hannounce.1.trans hcollect, hannounce.2⟩
    · cases hcomplete
      exact hannounce
  have hev := hready.1
  have hlt : w.classes.size < (w.classes.push (d.toClass w order)).size := by simp
  have hkeeps := hev.keeps _ hlt
  rw [cls_push_self] at hkeeps
  exact ⟨rfl, hknown, order, horder, hkeeps, (evolves_push w _).trans hev, hready.2⟩

/-- Making a class sets a name on no class: its ancestors have no hooks, or no function sets the name. -/
def Calm (name : String) (w : World) (id : Nat) (w' : World) : Prop :=
  (∀ a ∈ (w'.order id).tail, a < w.classes.size ∧ (w.cls a).slots.get? "__init_subclass__" = none) ∨
    ∀ f ∈ w.functions, name ∉ f.sets

theorem create_of_calm {d : Draft} (h : (create d).runFrom w = (.ok id, w')) (hname : ¬Prepared name)
    (calm : w.Calm name id w') : id = w.classes.size ∧ id < w'.classes.size ∧
      ∃ order, Linearization.order? id d.parents w.order = some order ∧
        (d.toClass w order).Keeps (· ≠ name) (w'.cls id) ∧ Evolves (· ≠ name) w w' ∧ w'.modules = w.modules := by
  have hprepared : ∀ other, Prepared other → other ≠ name := fun other hother heq => hname (heq ▸ hother)
  rcases calm with unhooked | unset
  · obtain ⟨hid, hknown, order, horder, hkeeps, hev, hmodules⟩ := create_of_unhooked h unhooked
    exact ⟨hid, hknown, order, horder, hkeeps.mono hprepared, hev.mono hprepared, hmodules⟩
  · have tame : Tame (· ≠ name) w := ⟨hprepared _ (Or.inl rfl), hprepared _ (Or.inr rfl), fun f hf other hother heq =>
      unset f hf (heq ▸ hother)⟩
    obtain ⟨hid, hknown, order, horder, hkeeps⟩ := create_eq_ok tame h
    exact ⟨hid, hknown, order, horder, hkeeps, (faithful_create d).evolves tame h, (faithful_create d).modules_eq tame h⟩

/-- A class that code has defined without a stir: how it was made, and what it stores under a name. -/
structure Made (name : String) (home : Nat) (names : Entries Value) (c : Source.Class) (w : World) (id : Nat) (w' : World) :
    Prop where
  defines : Defines (· ≠ name) home c w id w'
  evolves : Evolves (· ≠ name) w w'
  modules : w'.modules = w.modules
  nothing : c.methods.filter (·.name == name) = [] → c.fields.filter (·.name == name) = [] →
    (w'.cls id).slots.get? name = none ∧ (w'.cls id).hints.get? name = none
  field : c.methods.filter (·.name == name) = [] → ∀ f, c.fields.filter (·.name == name) = [f] →
    ∃ value, f.Gives w names c.name value ∧
      (w'.cls id).slots.get? name = (value.map w.slotOf).map (impliedKind name) ∧
      (w'.cls id).hints.get? name = f.hint.map hintOf
  method : ∀ m, c.methods.filter (·.name == name) = [m] → ∃ f F,
    (w'.cls id).slots.get? name = some (impliedKind name (.routine m.kind f)) ∧ w'.function? f = some F ∧
      m.Makes home c.name w F

/-- Passive code defines a class without a stir, if making the class sets no name. -/
theorem made_of_defineClass (passive : c.IsPassive home M.names w) (hM : w.modules[home]? = some M)
    (hname : ¬Prepared name) (calm : w.Calm name id w') (h : (defineClass home c).runFrom w = (.ok id, w')) :
    Made name home M.names c w id w' := by
  obtain ⟨bases, t, hbases, h⟩ := Act.bind_eq_ok.1 h
  obtain ⟨between, u, hfields, h⟩ := Act.bind_eq_ok.1 h
  obtain ⟨s, v, hmethods, h⟩ := Act.bind_eq_ok.1 h
  obtain ⟨_, _, hget, h⟩ := Act.bind_eq_ok.1 h
  cases hget
  obtain rfl := world_of_bases hbases
  have hleaves : Leaves home c t s v := ⟨between, u, hfields, hmethods⟩
  obtain ⟨⟨more, rfl, hsets⟩, hbody, hmethod⟩ := leaves_of_passive name passive hM hleaves
  -- The functions that the body has made set nothing.
  have calm : (t.withMore more).Calm name id w' := calm.imp (fun h => h) fun unset f hf => by
    rcases Array.mem_append.1 hf with hf | hf
    · exact unset f hf
    · rw [hsets f hf]
      exact List.not_mem_nil
  obtain ⟨hid, hlt, order, horder, hkeeps, hev, hmodules⟩ := create_of_calm h hname calm
  have hslots : (w'.cls id).slots.get? name = (s.slots.get? name).map (impliedKind name) := by
    rw [hkeeps.slots name (by simp)]
    exact Entries.get?_map _ _ _
  have hhints : (w'.cls id).hints = s.hints := hkeeps.hints
  refine ⟨.intro bases s t (t.withMore more) order hbases hleaves hid hlt horder hkeeps hev,
    (evolves_withMore t hsets).trans hev, hmodules, fun hm hf => ?_, fun hm f hf => ?_, fun m hm => ?_⟩
  · obtain ⟨hslot, hhint⟩ := (hbody hm).1 hf
    rw [hslots, hhints, hslot, hhint]
    exact ⟨rfl, rfl⟩
  · obtain ⟨value, hgives, hslot, hhint⟩ := (hbody hm).2 f hf
    rw [hslots, hhints, hslot, hhint]
    exact ⟨value, hgives, rfl, rfl⟩
  · obtain ⟨f, F, hslot, hF, hmakes⟩ := hmethod m hm
    rw [hslots, hslot]
    exact ⟨f, F, rfl, hev.function? hF, hmakes⟩

end World

end Amalgam
