import Amalgam.Proofs.World.Loading
import Amalgam.Proofs.World.Marks

/-!
# The class that code defines

A class that is defined is a new object. It has the name that its definition says and stores what the body of its
definition leaves, as far as the hooks of its ancestors do not set these (`World.Defines`). What the first
field stores is still there if no line after it stores something under the same name (`World.get?_slots_of_first`).
-/

namespace Amalgam

/-- No other name turns into one that starts with two underscores and is not private. -/
theorem Text.privateName_eq_special_iff {owner name special : String} (hstart : ['_', '_'] <+: special.toList)
    (hpublic : isPrivateName special = false) : privateName owner name = special ↔ name = special := by
  constructor
  · intro heq
    by_contra hne
    have hchanged : privateName owner name ≠ name := fun hsame => hne (hsame.symm.trans heq)
    obtain ⟨-, c, stem, hc, -, hlist⟩ := privateName_of_ne hchanged
    obtain ⟨tail, htail⟩ := hstart
    rw [heq, ← htail] at hlist
    exact hc (List.cons.inj (List.cons.inj hlist).2).1.symm
  · rintro rfl
    rw [privateName, hpublic]
    rfl

theorem Text.privateName_eq_reservedField {owner name : String} :
    Text.privateName owner name = reservedField ↔ name = reservedField :=
  privateName_eq_special_iff (by decide +kernel) (by decide +kernel)

namespace World

variable {S : String → Prop} {w w' : World} {home id : Nat} {c : Source.Class}

/-! ## What the body leaves -/

/-- Steps none of which stores something under a name keep what is there. -/
theorem get?_slots_foldlM {α : Type} {step : Scope → α → Act World Scope} {owner name : String} {as : List α}
    (hstep : ∀ a ∈ as, ∀ s w s' w', s.owner = owner → (step s a).runFrom w = (.ok s', w') →
      s'.owner = owner ∧ s'.slots.get? name = s.slots.get? name) {s s' : Scope} (hs : s.owner = owner)
    (h : (as.foldlM step s).runFrom w = (.ok s', w')) : s'.owner = owner ∧ s'.slots.get? name = s.slots.get? name := by
  induction as generalizing s w with
  | nil =>
    cases h
    exact ⟨hs, rfl⟩
  | cons a as ih =>
    rw [List.foldlM_cons] at h
    obtain ⟨next, u, hnext, h⟩ := Act.bind_eq_ok.1 h
    obtain ⟨howner, hget⟩ := hstep a List.mem_cons_self s w next u hs hnext
    obtain ⟨howner', hget'⟩ := ih (fun a ha => hstep a (List.mem_cons_of_mem _ ha)) howner h
    exact ⟨howner', hget'.trans hget⟩

/-- Fields of other names leave what is stored under a name. -/
theorem get?_slots_of_otherFields {fields : List Source.FieldLine} {owner name : String} {s s' : Scope}
    (others : ∀ g ∈ fields, Text.privateName owner g.name ≠ name) (hs : s.owner = owner)
    (h : (fields.foldlM Scope.runField s).runFrom w = (.ok s', w')) : s'.owner = owner ∧ s'.slots.get? name = s.slots.get? name := by
  refine get?_slots_foldlM (fun g hg s w s' w' hs hstep => ?_) hs h
  obtain ⟨howner, ⟨-, hslots⟩ | ⟨-, slot, hslots⟩⟩ := runField_eq_ok hstep
  · exact ⟨howner.trans hs, by rw [hslots]⟩
  · refine ⟨howner.trans hs, ?_⟩
    rw [hslots, hs, Entries.get?_put_of_ne _ _ (Ne.symm (others g hg))]

/-- The scope and the world that the lines of a class leave. -/
def Leaves (home : Nat) (c : Source.Class) (w : World) (s : Scope) (w' : World) : Prop :=
  ∃ between u, (c.fields.foldlM Scope.runField { home, owner := c.name }).runFrom w = (.ok between, u) ∧
    (c.methods.foldlM Scope.runMethod between).runFrom u = (.ok s, w')

/-- A literal that the first field stores stays, where nothing after it is stored under its name. -/
theorem get?_slots_of_first {s : Scope} (h : Leaves home c w s w') {f : Source.FieldLine} {rest : List Source.FieldLine}
    {text : String} (hfields : c.fields = f :: rest) (hvalue : f.value = some (.literal text)) (hname : f.name = reservedField)
    (hrest : ∀ g ∈ rest, g.name ≠ reservedField) (hmethods : ∀ m ∈ c.methods, m.name ≠ reservedField) :
    ∃ w : World, s.slots.get? reservedField = some (w.slotOf (literalValue text)) := by
  obtain ⟨between, u, hbody, hrun⟩ := h
  rw [hfields, List.foldlM_cons] at hbody
  obtain ⟨first, v, hfirst, hbody⟩ := Act.bind_eq_ok.1 hbody
  have hstored : first.owner = c.name ∧ first.slots.get? reservedField = some (w.slotOf (literalValue text)) := by
    have hsplit : Text.splitOnChar '.' reservedField = [reservedField] := by decide +kernel
    unfold Scope.runField at hfirst
    rw [hname, hvalue, hsplit, List.map_singleton, Text.privateName_eq_reservedField.2 rfl] at hfirst
    cases hfirst
    exact ⟨rfl, Entries.get?_put_self _ _ _⟩
  have hmethod : ∀ m ∈ c.methods, ∀ s w s' w', s.owner = c.name → (Scope.runMethod s m).runFrom w = (.ok s', w') →
      s'.owner = c.name ∧ s'.slots.get? reservedField = s.slots.get? reservedField := by
    intro m hm s w s' w' hs hstep
    obtain ⟨howner, slot, hslots⟩ := runMethod_eq_ok hstep
    refine ⟨howner.trans hs, ?_⟩
    rw [hslots, Entries.get?_put_of_ne _ _ fun heq => hmethods m hm (Text.privateName_eq_reservedField.1 heq.symm)]
  obtain ⟨howner, hget⟩ := get?_slots_of_otherFields
    (fun g hg heq => hrest g hg (Text.privateName_eq_reservedField.1 heq)) hstored.1 hbody
  obtain ⟨-, hget'⟩ := get?_slots_foldlM hmethod howner hrun
  exact ⟨w, by rw [hget', hget, hstored.2]⟩

/-! ## The class -/

/-- The draft of a class whose body left a scope, in a world where its module is in place. -/
def draftOf (home : Nat) (c : Source.Class) (bases : List Nat) (s : Scope) (made : World) : Draft where
  name := c.name
  qualname := c.name
  home := s.homeOf (((made.modules[home]?).map Module.name).getD "")
  bases := bases
  slots := s.slots
  hints := s.hints

/--
How a definition makes a class: its body is run, a new class is made of what that leaves, and the hooks of its ancestors
set some names at most.
-/
inductive Defines (S : String → Prop) (home : Nat) (c : Source.Class) (w : World) (id : Nat) (w' : World) : Prop where
  | intro (bases : List Nat) (s : Scope) (start made : World) (order : List Nat)
    (derives : (c.bases.mapM (baseOf home)).runFrom w = (.ok bases, start)) (body : Leaves home c start s made)
    (number : id = made.classes.size) (known : id < w'.classes.size)
    (linear : Linearization.order? id (draftOf home c bases s made).parents made.order = some order)
    (keeps : ((draftOf home c bases s made).toClass made order).Keeps S (w'.cls id)) (evolves : Evolves S made w')

theorem evolves_leaves {s : Scope} (tame : Tame S w) (sets : ∀ f ∈ c.fields, f.SetsIn S) (h : Leaves home c w s w') :
    Evolves S w w' := by
  obtain ⟨between, u, hfields, hmethods⟩ := h
  have hfirst := (Act.Faithful.foldlM (fun s f hf => faithful_runField s (sets f hf)) _).evolves tame hfields
  exact hfirst.trans ((Act.Faithful.foldlM (fun s m _ => faithful_runMethod s m) _).evolves (tame.evolves hfirst) hmethods)

/-- The lines of a class leave all modules in place. -/
theorem modules_leaves {s : Scope} (h : Leaves home c w s w') : w'.modules = w.modules := by
  obtain ⟨between, u, hfields, hmethods⟩ := h
  have hfirst := (Act.Faithful.foldlM (fun s f _ => faithful_runField s (setsIn_everything f)) _).modules_eq
    (tame_everything w) hfields
  have hsecond := (Act.Faithful.foldlM (fun s m _ => faithful_runMethod s m) _).modules_eq (tame_everything u) hmethods
  exact hsecond.trans hfirst

theorem evolves_derives {bases : List Nat} (tame : Tame S w) (h : (c.bases.mapM (baseOf home)).runFrom w = (.ok bases, w')) :
    Evolves S w w' :=
  (Act.Faithful.mapM fun name _ => faithful_baseOf home name).evolves tame h

/-- The class that a definition makes is new. -/
theorem Defines.new (h : Defines S home c w id w') : w.classes.size ≤ id := by
  obtain ⟨bases, s, start, made, order, derives, body, number, known, linear, keeps, -⟩ := h
  have hstart := (evolves_derives (tame_everything w) derives).classes
  have hmade := (evolves_leaves (tame_everything start) (fun f _ => setsIn_everything f) body).classes
  exact number ▸ Nat.le_trans hstart hmade

theorem Defines.known (h : Defines S home c w id w') : id < w'.classes.size := by
  obtain ⟨bases, s, start, made, order, derives, body, number, known, linear, keeps, -⟩ := h
  exact known

/-- Apart from it, the world is as before, but for the names that may be set. -/
theorem Defines.evolves (h : Defines S home c w id w') (tame : Tame S w) (sets : ∀ f ∈ c.fields, f.SetsIn S) :
    Evolves S w w' := by
  obtain ⟨bases, s, start, made, order, derives, body, number, known, linear, keeps, evolves⟩ := h
  have hstart := evolves_derives tame derives
  exact (hstart.trans (evolves_leaves (tame.evolves hstart) sets body)).trans evolves

theorem Defines.name (h : Defines S home c w id w') (hS : ¬S "__name__") : (w'.cls id).name = c.name := by
  obtain ⟨bases, s, start, made, order, derives, body, number, known, linear, keeps, -⟩ := h
  exact keeps.name hS

/-- A class stores what the body of its definition leaves. -/
theorem Defines.slots (h : Defines S home c w id w') : ∃ start s made, Leaves home c start s made ∧
    ∀ name, ¬S name → (w'.cls id).slots.get? name = (s.slots.get? name).map (impliedKind name) := by
  obtain ⟨bases, s, start, made, order, derives, body, number, known, linear, keeps, -⟩ := h
  refine ⟨start, s, made, body, fun name hS => ?_⟩
  rw [keeps.slots name hS]
  exact Entries.get?_map _ _ _

theorem defineClass_eq_ok (tame : Tame S w) (h : (defineClass home c).runFrom w = (.ok id, w')) :
    Defines S home c w id w' := by
  obtain ⟨bases, t, hbases, h⟩ := Act.bind_eq_ok.1 h
  obtain ⟨between, u, hfields, h⟩ := Act.bind_eq_ok.1 h
  obtain ⟨s, v, hmethods, h⟩ := Act.bind_eq_ok.1 h
  obtain ⟨_, _, hget, h⟩ := Act.bind_eq_ok.1 h
  cases hget
  have hleaves : Leaves home c t s v := ⟨between, u, hfields, hmethods⟩
  -- What the body does before the class is there may set any name of any other class.
  have hbody : Evolves Everything w v := (evolves_derives (tame_everything w) hbases).trans
    (evolves_leaves (tame_everything t) (fun f _ => setsIn_everything f) hleaves)
  obtain ⟨hid, hlt, order, horder, hkeeps⟩ := create_eq_ok (tame.evolves hbody) h
  exact .intro bases s t v order hbases hleaves hid hlt horder hkeeps ((faithful_create _).evolves (tame.evolves hbody) h)

theorem found_defined {l : Launch} {names : Entries Value} {new : Nat} (hasked : c.name = l.name)
    (h : found c l.name (names.put c.name (.cls new)) = .ok id) : id = new := by
  rw [found, hasked, Entries.get?_put_self] at h
  dsimp only at h
  split at h
  · exact (Except.ok.inj h).symm
  · cases h

/-- A module more changes no object. -/
theorem evolves_withModule (w : World) (m : Module) : Evolves S w (w.withModule m) := Evolves.of_eq rfl rfl rfl

/-- Code of a class of the name that is asked for gives that class, and binds it in its module. -/
theorem defined_of_execute (tame : Tame S w) {l : Launch} {code : Source.Code}
    (h : (execute l code).runFrom w = (.ok id, w')) (hasked : code.cls.name = l.name) :
    ∃ m u, w.runImports l.start code.imports = .ok m ∧ Defines S w.modules.size code.cls (w.withModule m) id u ∧
      w' = { u with modules := w.modules.push { m with names := m.names.put code.cls.name (.cls id) } } := by
  obtain ⟨m, new, u, himports, hdefined, hfound, hw'⟩ := execute_eq_ok h
  have tame' : Tame S (w.withModule m) := ⟨tame.init, tame.hook, tame.sets⟩
  cases found_defined hasked hfound
  exact ⟨m, u, himports, defineClass_eq_ok tame' hdefined, hw'⟩

end World

end Amalgam
