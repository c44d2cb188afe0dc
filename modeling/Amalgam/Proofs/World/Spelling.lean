import Amalgam.Proofs.World.Running
import Amalgam.Value.Spelling
import Mathlib.Tactic.ByContra

/-!
# Objects keep their written form

How a value is written depends on the objects that it is made of (`Value.spell?_congr`). In an evolution of a world an
object that was there is written as before, unless the module or the qualified name of a class may be set, and a class
finds what it found (`World.Evolves.spell_eq`, `World.Evolves.slot?_eq`).
-/

namespace Amalgam

namespace Value

mutual

/-- The parts of a value that are no plain data. -/
def objects : Value → List Value
  | list vs => objectsOfAll vs
  | tuple vs => objectsOfAll vs
  | set vs => objectsOfAll vs
  | dict es => objectsOfEntries es
  | verdict _ v => objects v
  | none => []
  | bool _ => []
  | int _ => []
  | float _ => []
  | complex _ _ => []
  | str _ => []
  | bytes _ => []
  | ellipsis => []
  | token _ => []
  | v => [v]

def objectsOfAll : List Value → List Value
  | [] => []
  | v :: vs => objects v ++ objectsOfAll vs

def objectsOfEntries : List (Value × Value) → List Value
  | [] => []
  | (k, v) :: es => objects k ++ objects v ++ objectsOfEntries es

end

variable {f g : Speller}

mutual

/-- Two spellers that agree on the objects of a value write it alike. -/
theorem spell?_congr : (v : Value) → (∀ o ∈ v.objects, f o = g o) → spell? f v = spell? g v
  | list vs, h => by rw [spell?, spell?, spellAll?_congr vs h]
  | tuple [], _ => rfl
  | tuple [v], h => by
    rw [spell?, spell?, spell?_congr v fun o ho => h o (List.mem_append_left _ ho)]
  | tuple (v :: v' :: vs), h => by
    have hall : spellAll? f (v :: v' :: vs) = spellAll? g (v :: v' :: vs) := spellAll?_congr (v :: v' :: vs) h
    simp only [spell?, hall]
  | set [], _ => rfl
  | set (v :: vs), h => by
    have hall : spellAll? f (v :: vs) = spellAll? g (v :: vs) := spellAll?_congr (v :: vs) h
    simp only [spell?, hall]
  | dict es, h => by rw [spell?, spell?, spellEntries?_congr es h]
  | verdict _ v, h => by rw [spell?, spell?, spell?_congr v h]
  | none, _ => rfl
  | bool _, _ => rfl
  | int _, _ => rfl
  | float _, _ => rfl
  | complex _ _, _ => rfl
  | str _, _ => rfl
  | bytes _, _ => rfl
  | ellipsis, _ => rfl
  | token _, _ => rfl
  | broken, h => h _ List.mem_cons_self
  | cls _, h => h _ List.mem_cons_self
  | inst _, h => h _ List.mem_cons_self
  | function _, h => h _ List.mem_cons_self
  | bound _ _, h => h _ List.mem_cons_self
  | property _ _, h => h _ List.mem_cons_self
  | pending _ _, h => h _ List.mem_cons_self

theorem spellAll?_congr : (vs : List Value) → (∀ o ∈ objectsOfAll vs, f o = g o) → spellAll? f vs = spellAll? g vs
  | [], _ => rfl
  | v :: vs, h => by
    rw [spellAll?, spellAll?, spell?_congr v fun o ho => h o (List.mem_append_left _ ho),
      spellAll?_congr vs fun o ho => h o (List.mem_append_right _ ho)]

theorem spellEntries?_congr : (es : List (Value × Value)) → (∀ o ∈ objectsOfEntries es, f o = g o) →
    spellEntries? f es = spellEntries? g es
  | [], _ => rfl
  | (k, v) :: es, h => by
    rw [spellEntries?, spellEntries?,
      spell?_congr k fun o ho => h o (List.mem_append_left _ (List.mem_append_left _ ho)),
      spell?_congr v fun o ho => h o (List.mem_append_left _ (List.mem_append_right _ ho)),
      spellEntries?_congr es fun o ho => h o (List.mem_append_right _ ho)]

end

end Value

namespace World

/-- Whether an object, and the class of an instance, is there. -/
def isKnown (w : World) : Value → Bool
  | .cls id => id < w.classes.size
  | .inst id => (w.classOf? id).any (· < w.classes.size)
  | .function id => id < w.functions.size
  | .bound id _ => id < w.functions.size
  | .pending id _ => id < w.functions.size
  | _ => true

/-- The ancestors of all classes are there, and so are the objects in the defaults of all functions. -/
structure IsClosed (w : World) : Prop where
  orders : ∀ c ∈ w.classes, ∀ a ∈ c.order, a < w.classes.size
  defaults : ∀ f ∈ w.functions, ∀ p ∈ f.params, ∀ v ∈ p.default, ∀ o ∈ v.objects, w.isKnown o = true

instance (w : World) : Decidable w.IsClosed :=
  decidable_of_iff ((∀ c ∈ w.classes, ∀ a ∈ c.order, a < w.classes.size) ∧
    ∀ f ∈ w.functions, ∀ p ∈ f.params, ∀ v ∈ p.default, ∀ o ∈ v.objects, w.isKnown o = true)
    ⟨fun ⟨h, h'⟩ => ⟨h, h'⟩, fun ⟨h, h'⟩ => ⟨h, h'⟩⟩

variable {S : String → Prop} {w w' : World} (h : Evolves S w w')

include h

theorem Evolves.speller_eq (hmodule : ¬S "__module__") (hqualname : ¬S "__qualname__") {o : Value}
    (known : w.isKnown o = true) : w'.speller o = w.speller o := by
  have hclass : ∀ id < w.classes.size, (w'.cls id).home = (w.cls id).home ∧ (w'.cls id).qualname = (w.cls id).qualname :=
    fun id hid => ⟨(h.keeps id hid).home hmodule, (h.keeps id hid).qualname hqualname⟩
  have hfunction : ∀ id < w.functions.size, w'.function? id = w.function? id := by
    intro id hid
    have hf : w.function? id = some w.functions[id] := Array.getElem?_eq_getElem hid
    rw [hf, h.function? hf]
  cases o with
  | cls id =>
    obtain ⟨hhome, hname⟩ := hclass id (by simpa [isKnown] using known)
    simp only [speller, spellClass, hhome, hname]
  | inst id =>
    cases hc : w.classOf? id with
    | none => simp [isKnown, hc] at known
    | some c =>
      obtain ⟨hhome, hname⟩ := hclass c (by simpa [isKnown, hc] using known)
      simp only [speller, hc, h.instances id c hc, hhome, hname]
  | function id => simp only [speller, hfunction id (by simpa [isKnown] using known)]
  | bound id r => simp only [speller, hfunction id (by simpa [isKnown] using known)]
  | pending id args => simp only [speller, hfunction id (by simpa [isKnown] using known)]
  | _ => rfl

/-- A value of objects that were there is written as it was. -/
theorem Evolves.spell_eq (hmodule : ¬S "__module__") (hqualname : ¬S "__qualname__") {v : Value}
    (known : ∀ o ∈ v.objects, w.isKnown o = true) : w'.spell v = w.spell v := by
  rw [spell, spell, Value.spellSafely, Value.spellSafely,
    Value.spell?_congr v fun o ho => h.speller_eq hmodule hqualname (known o ho)]

/-- A class that finds something under a name that is not set finds it ever after. -/
theorem Evolves.slot?_eq (closed : w.IsClosed) {name : String} (hname : ¬S name) {id : Nat} {slot : Slot}
    (hslot : w.slot? id name = some slot) : w'.slot? id name = some slot := by
  have hid : id < w.classes.size := by
    by_contra hunknown
    have hcls : w.cls id = noClass := by
      rw [cls, Array.getElem?_eq_none (Nat.le_of_not_lt hunknown)]
      rfl
    rw [slot?, order, hcls] at hslot
    cases hslot
  have hmem : w.cls id ∈ w.classes := by
    rw [cls, Array.getElem?_eq_getElem hid]
    exact Array.getElem_mem hid
  have hslots : ∀ a ∈ w.order id, (w'.cls a).slots.get? name = (w.cls a).slots.get? name :=
    fun a ha => (h.keeps a (closed.orders _ hmem a ha)).slots name hname
  rw [← hslot, slot?, slot?, order, (h.keeps id hid).order]
  show (w.order id).findSome? _ = (w.order id).findSome? _
  generalize w.order id = order at hslots
  induction order with
  | nil => rfl
  | cons a order ih =>
    rw [List.findSome?_cons, List.findSome?_cons, hslots a List.mem_cons_self,
      ih fun b hb => hslots b (List.mem_cons_of_mem _ hb)]

end World

end Amalgam
