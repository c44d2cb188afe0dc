import Amalgam.Proofs.World.Marks
import Amalgam.Proofs.World.Spelling

/-!
# The defaults of generated parameters

A default is a literal, whose value depends on nothing, or one that the library reads back from a function. Reading back
goes through two names of the module and through the class of the function (`World.defaultValue_readBack`): it gives the
value that the function itself has for the parameter.
-/

namespace Amalgam

open Source (implementation)

/-- What stands behind a member: its kind, and what is called in the end. -/
def Slot.callee? : Slot → Option (MemberKind × Value)
  | .routine kind f => some (kind, .function f)
  | .staticValue v => some (.static, v)
  | _ => none

namespace World

variable {w w' : World} {s : Scope} {home : Nat}

/-- The value of a literal that is a default. A tuple of one item without brackets is the item. -/
def literalDefault (text : String) : Value :=
  match Literal.openItems? text with
  | some [v] => v
  | _ => literalValue text

theorem runFrom_defaultValue_literal (text : String) :
    (s.defaultValue (.literal text)).runFrom w = (.ok (literalDefault text), w) := by
  unfold Scope.defaultValue literalDefault
  dsimp only
  generalize Literal.openItems? text = items
  rcases items with _ | _ | ⟨v, _ | _⟩ <;> rfl

/-! ## Names and attributes -/

/-- A name that a module has stands for that, if it stands for anything. -/
theorem globalIn_eq_ok {m : Module} (hm : w.modules[home]? = some m) {name : String} {v x : Value}
    (hv : m.names.get? name = some v) (h : (globalIn home name).runFrom w = (.ok x, w')) : x = v ∧ w' = w := by
  unfold globalIn at h
  rw [Act.runFrom_bind, Act.runFrom_get] at h
  dsimp only at h
  unfold global? at h
  split at h
  · rename_i found hfound
    cases h
    split at hfound
    · rw [hm, Option.bind_some, hv] at hfound
      exact ⟨(Option.some.inj hfound).symm, rfl⟩
    · cases hfound
  · cases h

/-- What a class finds is told without a call, whatever objects answer one level below. -/
theorem runFrom_next_attr_cls (b : Behaviour) {id : Nat} {name : String} {slot : Slot} (h : w.slot? id name = some slot) :
    (b.next.attr (.cls id) name).runFrom w = (.ok (throughClass id slot), w) := by
  unfold Behaviour.next
  dsimp only
  rw [Act.runFrom_bind, Act.runFrom_get]
  simp only [plainAttribute?, classAttribute?, h]
  rfl

/-- A member of a class leads to its function, whatever its kind. -/
theorem runFrom_next_attrs_implementation (b : Behaviour) {id : Nat} {kind : MemberKind} {name owner : String} {slot : Slot}
    {v : Value} (h : w.slot? id name = some slot) (hv : slot.callee? = some (kind, v)) :
    ((implementation owner kind name).attributes.foldlM b.next.attr (.cls id)).runFrom w = (.ok v, w) := by
  have hfirst := runFrom_next_attr_cls b h
  cases slot <;> cases hv
  · cases kind with
    | ofClass => exact Act.bind_eq_ok.2 ⟨_, w, hfirst, Act.bind_eq_ok.2 ⟨_, w, rfl, rfl⟩⟩
    | _ => exact Act.bind_eq_ok.2 ⟨_, w, hfirst, rfl⟩
  · exact Act.bind_eq_ok.2 ⟨_, w, hfirst, rfl⟩

/-! ## Reading back -/

/-- What the library brings along is in place. -/
structure IsFurnished (w : World) : Prop where
  classes : fresh.classes.size ≤ w.classes.size
  functions : ∀ id f, fresh.function? id = some f → w.function? id = some f

/-- So it is in the first world with more classes and functions. -/
theorem IsFurnished.of_more {more : Array Function} (classes : fresh.classes.size ≤ w.classes.size)
    (functions : w.functions = fresh.functions ++ more) : w.IsFurnished := by
  refine ⟨classes, fun id f hf => ?_⟩
  rw [function?, functions, Array.getElem?_append_left (Array.getElem?_eq_some_iff.1 hf).1]
  exact hf

theorem IsFurnished.evolves {S : String → Prop} (h : w.IsFurnished) (hev : Evolves S w w') : w'.IsFurnished :=
  ⟨Nat.le_trans h.classes hev.classes, fun id f hf => hev.function? (h.functions id f hf)⟩

/-- The library's reader gives what a function has for a parameter. -/
theorem runFrom_call_reader (furnished : w.IsFurnished) (f : Value) (name : String) :
    (behaviour.call (.function parameterDefaultId) [f, .str name] []).runFrom w =
      (settle (w.defaultOf f (.str name))).runFrom w := by
  have hreader := furnished.functions parameterDefaultId _ rfl
  show ((Behaviour.levels 299).apply parameterDefaultId [f, .str name] []).runFrom w = _
  unfold Behaviour.apply
  rw [Act.runFrom_bind, Act.runFrom_get]
  simp only [hreader]
  rfl

theorem defaultOf_function {f : Nat} {F : Function} (hF : w.function? f = some F) (readable : F.isReadable = true)
    {name : String} {q : Parameter} (hq : F.params.find? (·.name == name) = some q) :
    w.defaultOf (.function f) (.str name) = .ok (q.default.getD (.cls absentId)) := by
  have hsame : (fun p : Parameter => (Value.str name).same (.str p.name)) = (·.name == name) := by
    funext p
    exact Bool.beq_comm
  have hps : w.parametersOf (.function f) = .ok F.params := by
    simp only [parametersOf, hF, readable, if_true]
  unfold defaultOf
  rw [hps, hsame]
  simp only [bind, Except.bind, hq]

/-- A default that is read back is the one that the function behind a class's member has, and nothing changes. -/
theorem defaultValue_readBack (furnished : w.IsFurnished) {m : Module} (hm : w.modules[s.home]? = some m)
    {reader owner name param : String} {kind : MemberKind} {id f : Nat} {F : Function} {q : Parameter} {v : Value}
    (hreader : m.names.get? reader = some (.function parameterDefaultId)) (howner : m.names.get? owner = some (.cls id))
    (hslot : w.slot? id name = some (.routine kind f)) (hF : w.function? f = some F) (readable : F.isReadable = true)
    (hq : F.params.find? (·.name == param) = some q)
    (h : (s.defaultValue (.readBack reader (implementation owner kind name) param)).runFrom w = (.ok v, w')) :
    v = q.default.getD (.cls absentId) ∧ w' = w := by
  obtain ⟨r, _, hr, hread⟩ := Act.bind_eq_ok.1 h
  obtain ⟨rfl, rfl⟩ := globalIn_eq_ok hm hreader hr
  obtain ⟨c, _, hc, hfound⟩ := Act.bind_eq_ok.1 hread
  obtain ⟨rfl, rfl⟩ := globalIn_eq_ok hm howner hc
  obtain ⟨g, u, hg, hcall⟩ := Act.bind_eq_ok.1 hfound
  have hmember : ((implementation owner kind name).attributes.foldlM behaviour.attr (.cls id)).runFrom _ = _ :=
    runFrom_next_attrs_implementation (Behaviour.levels 299) hslot rfl
  rw [hmember] at hg
  cases hg
  rw [runFrom_call_reader furnished, defaultOf_function hF readable hq] at hcall
  cases hcall
  exact ⟨rfl, rfl⟩

end World

end Amalgam
