import Amalgam.Proofs.World.Declaring
import Amalgam.Proofs.World.Spelling

/-!
# Classes that find what they declare

A class finds under a name what the first class of its order stores there, and a manifest lists what the first declares
that declares anything. `World.Tells` says that the two are one class. What a class tells stays when the
world evolves (`World.Evolves.gist?_eq`), and a class that has nothing of its own under a name tells of it what its base
does, unless another ancestor says something of it (`World.TakesAfter`).
-/

namespace Amalgam

theorem List.findSome?_congr {α β : Type} {f g : α → Option β} {l : List α} (h : ∀ a ∈ l, f a = g a) :
    l.findSome? f = l.findSome? g := by
  induction l with
  | nil => rfl
  | cons a l ih =>
    rw [List.findSome?_cons, List.findSome?_cons, h a List.mem_cons_self, ih fun b hb => h b (List.mem_cons_of_mem _ hb)]

/-- What a sublist has is what is left of a list without duplicates when all else is dropped. -/
theorem List.filter_mem_eq_of_sublist {α : Type} [DecidableEq α] {l l' : List α} (h : l.Sublist l') (distinct : l'.Nodup) :
    l'.filter (fun a => decide (a ∈ l)) = l := by
  induction h with
  | slnil => rfl
  | @cons l l' a h ih =>
    obtain ⟨ha, distinct⟩ := List.nodup_cons.1 distinct
    rw [List.filter_cons_of_neg (by simpa using fun hmem => ha (h.subset hmem)), ih distinct]
  | @cons_cons l l' a h ih =>
    obtain ⟨ha, distinct⟩ := List.nodup_cons.1 distinct
    rw [List.filter_cons_of_pos (by simp)]
    refine congrArg (a :: ·) ((List.filter_congr fun b hb => ?_).trans (ih distinct))
    have hne : b ≠ a := fun he => ha (he ▸ hb)
    simp [hne]

theorem List.findSome?_filter_of {α β : Type} {f : α → Option β} (keep : α → Bool) {l : List α}
    (h : ∀ a ∈ l, keep a = false → f a = none) : (l.filter keep).findSome? f = l.findSome? f := by
  induction l with
  | nil => rfl
  | cons a l ih =>
    have ih := ih fun b hb => h b (List.mem_cons_of_mem _ hb)
    by_cases hkeep : keep a = true
    · rw [List.filter_cons_of_pos hkeep, List.findSome?_cons, List.findSome?_cons, ih]
    · rw [List.filter_cons_of_neg hkeep, List.findSome?_cons, h a List.mem_cons_self (by simpa using hkeep), ih]

/-- Whether a class stores or annotates a name. -/
def Class.mentions (c : Class) (name : String) : Bool := c.slots.has name || c.hints.has name

namespace World

/-- The first class of an order that says anything of a name. -/
def teller? (w : World) (id : Nat) (name : String) : Option Nat := (w.order id).find? fun a => (w.cls a).mentions name

/-- If a class declares a name at all, the first that says anything of it declares it. -/
def Tells (w : World) (id : Nat) (name : String) : Prop := w.declaration? id name ≠ none →
  ∃ a ∈ w.lineage id, w.teller? id name = some a ∧ w.declared (w.ownersOf id) (w.cls a) name ≠ .nothing

/-- What is stored is known of, if it is a function. -/
def holds (w : World) : Slot → Bool
  | .routine _ f => f < w.functions.size
  | _ => true

/-- All functions that classes store are there. -/
def IsFiled (w : World) : Prop := ∀ c ∈ w.classes, ∀ e ∈ c.slots, w.holds e.2 = true

instance (w : World) : Decidable w.IsFiled := inferInstanceAs (Decidable (∀ c ∈ w.classes, _))

/-- What a declaration says whatever the parameters, the texts of values and the names of the owners are. -/
def Declared.gist : Declared → Declared
  | .member s => .member { s with visibility := .free, params := [] }
  | .field f => .field { f with visibility := .free, default := f.default.map fun _ => "" }
  | .nothing => .nothing

/-- The gist of the declaration that counts. -/
def gist? (w : World) (id : Nat) (name : String) : Option Declared := (w.declaration? id name).map Declared.gist

variable {w w' : World} {id a base : Nat} {name : String} {owners owners' : List String} {c c' : Class}

theorem IsFiled.holds (filed : w.IsFiled) {a : Nat} {slot : Slot} (hslot : (w.cls a).slots.get? name = some slot) :
    w.holds slot = true := by
  unfold cls at hslot
  cases ha : w.classes[a]? with
  | none =>
    rw [ha] at hslot
    cases hslot
  | some c =>
    rw [ha] at hslot
    exact filed c (Array.mem_of_getElem? ha) _ (Entries.mem_of_get? hslot)

/-! ## The first that says anything -/

theorem mentions_eq_false_iff : c.mentions name = false ↔ c.slots.get? name = none ∧ c.hints.get? name = none := by
  simp [Class.mentions, Entries.has]

theorem declared_of_silent (h : c.mentions name = false) : w.declared owners c name = .nothing := by
  obtain ⟨hslot, hhint⟩ := mentions_eq_false_iff.1 h
  simp only [declared, hslot, hhint]

theorem teller?_eq_findSome? :
    w.teller? id name = (w.order id).findSome? fun a => if (w.cls a).mentions name then some a else none := by
  unfold teller?
  induction w.order id with
  | nil => rfl
  | cons a order ih => cases ha : (w.cls a).mentions name <;> simp [ha, ih]

theorem split_of_teller (h : w.teller? id name = some a) :
    ∃ before after, w.order id = before ++ a :: after ∧ ∀ b ∈ before, (w.cls b).mentions name = false := by
  obtain ⟨-, before, after, hsplit, hbefore⟩ := List.find?_eq_some_iff_append.1 h
  exact ⟨before, after, hsplit, fun b hb => by simpa using hbefore b hb⟩

/-- Nothing is found before the first that says anything. -/
theorem slot?_of_teller (h : w.teller? id name = some a) {slot : Slot} (hslot : (w.cls a).slots.get? name = some slot) :
    w.slot? id name = some slot := by
  obtain ⟨before, after, hsplit, hbefore⟩ := split_of_teller h
  have hnone : (before.findSome? fun b => (w.cls b).slots.get? name) = none :=
    List.findSome?_eq_none_iff.2 fun b hb => (mentions_eq_false_iff.1 (hbefore b hb)).1
  rw [slot?, hsplit, List.findSome?_append, hnone, Option.none_or, List.findSome?_cons, hslot]

/-- Nor is anything declared before it. -/
theorem declaration?_of_teller (h : w.teller? id name = some a) (ha : a ∈ w.lineage id)
    (hbook : name ∉ bookkeepingNames) (hd : w.declared (w.ownersOf id) (w.cls a) name ≠ .nothing) :
    w.declaration? id name = some (w.declared (w.ownersOf id) (w.cls a) name) := by
  obtain ⟨before, after, hsplit, hbefore⟩ := split_of_teller h
  have hsome : (w.declared (w.ownersOf id) (w.cls a) name).some? = some (w.declared (w.ownersOf id) (w.cls a) name) := by
    cases hdeclared : w.declared (w.ownersOf id) (w.cls a) name with
    | nothing => exact absurd hdeclared hd
    | _ => rfl
  have hnone : ((before.filter fun b => b != objectId && !markIds.contains b).findSome? fun b =>
      (w.declared (w.ownersOf id) (w.cls b) name).some?) = none := by
    refine List.findSome?_eq_none_iff.2 fun b hb => ?_
    rw [declared_of_silent (hbefore b (List.mem_filter.1 hb).1)]
    rfl
  have hline : (a != objectId && !markIds.contains a) = true := (List.mem_filter.1 ha).2
  rw [declaration?, if_neg (by simpa using hbook), lineage, hsplit, List.filter_append, List.filter_cons, if_pos hline,
    List.findSome?_append, hnone, Option.none_or, List.findSome?_cons, hsome]

theorem Tells.declared_eq (h : w.Tells id name) {d : Declared} (hd : w.declaration? id name = some d) :
    ∃ a, w.teller? id name = some a ∧ w.declared (w.ownersOf id) (w.cls a) name = d := by
  obtain ⟨a, ha, hteller, hdeclared⟩ := h (by simp [hd])
  refine ⟨a, hteller, Option.some.inj ?_⟩
  rw [← hd, declaration?_of_teller hteller ha (exists_declared_of_declaration? hd).1 hdeclared]

/-- A method that is listed is found as it is listed: a function, or another value in the place of a static method. -/
theorem Tells.member (h : w.Tells id name) {s : Signature} (hs : w.declaration? id name = some (.member s)) :
    (∃ kind f F, w.slot? id name = some (.routine kind f) ∧ w.function? f = some F ∧
      s = w.signatureOf (w.ownersOf id) name kind F) ∨
    ∃ v, w.slot? id name = some (.staticValue v) ∧
      s = { name, kind := .static, visibility := nameVisibility name (w.ownersOf id), params := unknownParams } := by
  obtain ⟨a, hteller, hdeclared⟩ := h.declared_eq hs
  unfold declared fieldOf at hdeclared
  dsimp only at hdeclared
  split at hdeclared
  · rename_i kind f hslot
    split at hdeclared
    · rename_i F hF
      cases hdeclared
      exact Or.inl ⟨kind, f, F, slot?_of_teller hteller hslot, hF, rfl⟩
    · cases hdeclared
  · rename_i v hslot
    cases hdeclared
    exact Or.inr ⟨v, slot?_of_teller hteller hslot, rfl⟩
  · split at hdeclared <;> cases hdeclared
  · split at hdeclared <;> cases hdeclared
  · split at hdeclared
    · split at hdeclared <;> cases hdeclared
    · cases hdeclared

/-- A field that is listed with a value is found as it is listed; without one it is annotated. -/
theorem Tells.field (h : w.Tells id name) (hname : name ≠ reservedField) {f : Field}
    (hf : w.declaration? id name = some (.field f)) : f.name = name ∧
    ((∃ v, w.slot? id name = some (.value v) ∧ f.default = some (w.spell v) ∧
        (f.isDescriptor = true ↔ ∃ getter cached, v = .property getter cached)) ∨
      f.default = none ∧ f.isDescriptor = false ∧ f.hint.isSome = true) := by
  obtain ⟨a, hteller, hdeclared⟩ := h.declared_eq hf
  refine ⟨name_of_declared (congrArg Declared.name? hdeclared), ?_⟩
  unfold declared fieldOf at hdeclared
  dsimp only at hdeclared
  split at hdeclared
  · split at hdeclared <;> cases hdeclared
  · cases hdeclared
  · rename_i v hslot
    split at hdeclared
    · cases hdeclared
    · cases hdeclared
      refine Or.inl ⟨v, slot?_of_teller hteller hslot, rfl, ?_⟩
      cases v <;> simp
  · rw [if_neg (by simpa using hname)] at hdeclared
    cases hdeclared
  · split at hdeclared
    · split at hdeclared
      · cases hdeclared
      · cases hdeclared
        exact Or.inr ⟨rfl, rfl, rfl⟩
    · cases hdeclared

/-! ## As the world evolves -/

/-- The gist of what a class declares is in what it stores and annotates. -/
theorem gist_declared (hslot : c'.slots.get? name = c.slots.get? name) (hhint : c'.hints.get? name = c.hints.get? name)
    (hfunction : ∀ kind f, c.slots.get? name = some (.routine kind f) → w'.function? f = w.function? f) :
    (w'.declared owners' c' name).gist = (w.declared owners c name).gist := by
  unfold declared fieldOf
  rw [hslot, hhint]
  dsimp only
  split
  · rename_i kind f hstored
    rw [hfunction kind f hstored]
    split <;> rfl
  · rfl
  · split <;> rfl
  · split <;> rfl
  · split
    · split <;> rfl
    · rfl

theorem gist?_eq_findSome? : w.gist? id name = if bookkeepingNames.contains name then none
    else (w.lineage id).findSome? fun a => (w.declared (w.ownersOf id) (w.cls a) name).gist.some? := by
  unfold gist? declaration?
  split
  · rfl
  · rw [List.map_findSome?]
    congr 1
    funext a
    simp only [Function.comp_apply]
    cases w.declared (w.ownersOf id) (w.cls a) name <;> rfl

theorem gist_eq_nothing {d : Declared} : d.gist = .nothing ↔ d = .nothing := by
  cases d <;> simp [Declared.gist]

theorem gist?_eq_none : w.gist? id name = none ↔ w.declaration? id name = none := Option.map_eq_none_iff

section Evolving

variable {S : String → Prop} (h : Evolves S w w') (closed : w.IsClosed) (filed : w.IsFiled) (hid : id < w.classes.size)
  (hname : ¬S name)

include h closed hid

omit h in
theorem lt_of_mem_order_of_isClosed (ha : a ∈ w.order id) : a < w.classes.size := by
  have hmem : w.cls id ∈ w.classes := by
    rw [cls, Array.getElem?_eq_getElem hid]
    exact Array.getElem_mem hid
  exact closed.orders _ hmem a ha

omit closed in
theorem Evolves.order_eq : w'.order id = w.order id := (h.keeps id hid).order

omit closed in
theorem Evolves.lineage_eq : w'.lineage id = w.lineage id := by
  rw [lineage, lineage, h.order_eq hid]

include hname

theorem Evolves.stored_eq (ha : a ∈ w.order id) : (w'.cls a).slots.get? name = (w.cls a).slots.get? name :=
  (h.keeps a (lt_of_mem_order_of_isClosed closed hid ha)).slots name hname

omit hname in
theorem Evolves.hinted_eq (ha : a ∈ w.order id) : (w'.cls a).hints = (w.cls a).hints :=
  (h.keeps a (lt_of_mem_order_of_isClosed closed hid ha)).hints

theorem Evolves.found_eq : w'.slot? id name = w.slot? id name := by
  rw [slot?, slot?, h.order_eq hid]
  exact List.findSome?_congr fun a ha => h.stored_eq closed hid hname ha

theorem Evolves.teller?_eq : w'.teller? id name = w.teller? id name := by
  have hmentions : ∀ a ∈ w.order id, (w'.cls a).mentions name = (w.cls a).mentions name := by
    intro a ha
    rw [Class.mentions, Class.mentions, Entries.has, Entries.has, h.stored_eq closed hid hname ha, h.hinted_eq closed hid ha]
    rfl
  rw [teller?_eq_findSome?, teller?_eq_findSome?, h.order_eq hid]
  exact List.findSome?_congr fun a ha => by rw [hmentions a ha]

include filed

theorem Evolves.gist_declared_eq (ha : a ∈ w.order id) :
    (w'.declared owners' (w'.cls a) name).gist = (w.declared owners (w.cls a) name).gist := by
  refine gist_declared (h.stored_eq closed hid hname ha) (by rw [h.hinted_eq closed hid ha]) fun kind f hslot => ?_
  have hlt : f < w.functions.size := by simpa [holds] using filed.holds hslot
  have hf : w.function? f = some w.functions[f] := Array.getElem?_eq_getElem hlt
  rw [hf, h.function? hf]

theorem Evolves.gist?_eq : w'.gist? id name = w.gist? id name := by
  rw [gist?_eq_findSome?, gist?_eq_findSome?]
  split
  · rfl
  · rw [h.lineage_eq hid]
    exact List.findSome?_congr fun a ha => by
      rw [h.gist_declared_eq closed filed hid hname (List.mem_filter.1 ha).1]

/-- What a class tells later it told before. -/
theorem Evolves.tells_iff : w'.Tells id name ↔ w.Tells id name := by
  unfold Tells
  rw [Ne, Ne, ← gist?_eq_none, ← gist?_eq_none, h.gist?_eq closed filed hid hname, h.lineage_eq hid,
    h.teller?_eq closed hid hname]
  refine imp_congr Iff.rfl (exists_congr fun a => and_congr_right fun ha => and_congr_right fun _ => ?_)
  rw [Ne, Ne, ← @gist_eq_nothing (w'.declared _ _ _), ← @gist_eq_nothing (w.declared _ _ _),
    h.gist_declared_eq closed filed hid hname (List.mem_filter.1 ha).1]

end Evolving

/-! ## Classes that take after their base -/

/-- Besides a base and its ancestors, no ancestor of a class says anything of a name, or the class stores the name itself. -/
def TakesAfter (w : World) (id base : Nat) (name : String) : Prop := (w.cls id).slots.get? name ≠ none ∨
  ∀ a ∈ (w.order id).tail, a ∉ w.order base → (w.cls a).mentions name = false

instance : Decidable (w.TakesAfter id base name) := inferInstanceAs (Decidable (_ ∨ _))

/-- A class extends a base: its order is its own number and then others, those of the base in their order. -/
structure Extends (w : World) (id base : Nat) : Prop where
  order : ∃ rest, w.order id = id :: rest ∧ rest.Nodup ∧ (w.order base).Sublist rest
  lineage : ∃ rest, w.lineage id = id :: rest

theorem Evolves.extends {S : String → Prop} (h : Evolves S w w') (hid : id < w.classes.size) (hbase : base < w.classes.size)
    (extends' : w.Extends id base) : w'.Extends id base := by
  obtain ⟨horder, hline⟩ := extends'
  rw [← h.order_eq hid, ← h.order_eq hbase] at horder
  rw [← h.lineage_eq hid] at hline
  exact ⟨horder, hline⟩

variable (extends' : w.Extends id base) (after : w.TakesAfter id base name)

include extends' after

/-- A search through a class that has nothing of its own, for what only classes give that say something, goes as through its
base. -/
theorem findSome?_of_takesAfter {β : Type} {f : Nat → Option β} (hown : (w.cls id).slots.get? name = none)
    (hself : f id = none) (hsilent : ∀ a, (w.cls a).mentions name = false → f a = none) :
    (w.order id).findSome? f = (w.order base).findSome? f := by
  obtain ⟨rest, horder, distinct, hsub⟩ := extends'.order
  have hothers := after.resolve_left (not_not.2 hown)
  rw [horder] at hothers
  rw [horder, List.findSome?_cons, hself]
  show rest.findSome? f = _
  rw [← List.findSome?_filter_of fun a => decide (a ∈ w.order base), List.filter_mem_eq_of_sublist hsub distinct]
  intro a ha hkeep
  exact hsilent a (hothers a ha (by simpa using hkeep))

theorem slot?_of_takesAfter (hown : (w.cls id).slots.get? name = none) : w.slot? id name = w.slot? base name :=
  findSome?_of_takesAfter extends' after hown hown fun _ ha => (mentions_eq_false_iff.1 ha).1

variable (silent : (w.cls id).mentions name = false)

include silent

theorem teller?_of_takesAfter : w.teller? id name = w.teller? base name := by
  rw [teller?_eq_findSome?, teller?_eq_findSome?]
  refine findSome?_of_takesAfter extends' after (mentions_eq_false_iff.1 silent).1 ?_ ?_
  · rw [silent]
    rfl
  · intro a ha
    rw [ha]
    rfl

theorem gist?_of_takesAfter : w.gist? id name = w.gist? base name := by
  rw [gist?_eq_findSome?, gist?_eq_findSome?]
  split
  · rfl
  · have hline : ∀ owners k, ((w.lineage k).findSome? fun a => (w.declared owners (w.cls a) name).gist.some?) =
        (w.order k).findSome? fun a => if a != objectId && !markIds.contains a then
          (w.declared owners (w.cls a) name).gist.some? else none := by
      intro owners k
      show ((w.order k).filter _).findSome? _ = _
      rw [← List.findSome?_filter_of (fun a => a != objectId && !markIds.contains a) (l := w.order k)]
      · refine List.findSome?_congr fun a ha => ?_
        have hmark : (a != objectId && !markIds.contains a) = true := (List.mem_filter.1 ha).2
        rw [hmark, if_pos rfl]
      · intro a _ hmark
        rw [hmark]
        rfl
    have howners : ∀ a, (w.declared (w.ownersOf id) (w.cls a) name).gist = (w.declared (w.ownersOf base) (w.cls a) name).gist :=
      fun a => gist_declared rfl rfl fun _ _ _ => rfl
    simp only [howners]
    rw [hline, hline]
    have hnone : ∀ a, (w.cls a).mentions name = false → (if a != objectId && !markIds.contains a then
        (w.declared (w.ownersOf base) (w.cls a) name).gist.some? else none) = none := by
      intro a ha
      rw [declared_of_silent ha]
      exact ite_self _
    exact findSome?_of_takesAfter extends' after (mentions_eq_false_iff.1 silent).1 (hnone id silent) hnone

theorem tells_of_takesAfter (tells : w.Tells base name) : w.Tells id name := by
  obtain ⟨rest, horder, -, hsub⟩ := extends'.order
  intro hd
  rw [Ne, ← gist?_eq_none, gist?_of_takesAfter extends' after silent, gist?_eq_none] at hd
  obtain ⟨a, ha, hteller, hdeclared⟩ := tells hd
  obtain ⟨hmem, hline⟩ := List.mem_filter.1 ha
  refine ⟨a, List.mem_filter.2 ⟨horder ▸ List.mem_cons_of_mem _ (hsub.subset hmem), hline⟩,
    (teller?_of_takesAfter extends' after silent).trans hteller, ?_⟩
  have howners : (w.declared (w.ownersOf id) (w.cls a) name).gist = (w.declared (w.ownersOf base) (w.cls a) name).gist :=
    gist_declared rfl rfl fun _ _ _ => rfl
  rw [Ne, ← gist_eq_nothing, howners, gist_eq_nothing]
  exact hdeclared

end World

end Amalgam
